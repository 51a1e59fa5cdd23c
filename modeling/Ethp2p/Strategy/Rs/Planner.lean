/-
# Ethp2p.Strategy.Rs.Planner — the emit planner (`strategy/rs/planner.rs`).

The planner hands out shards to peers, least-allocated first, ties broken by a Fibonacci hash of the
seed.  Its heap may hold several entries per shard; `allocation` is the authority on a shard's count,
and an entry whose count disagrees with it is stale and dropped when it is popped.

`entry(peer).or_default()` of the source creates the peer's state even when the caller then changes
nothing in it; `modifyPeer` does the same.

The counts are 32-bit and are raised with `+ 1`, which wraps (a debug build panics there instead).
-/
import Ethp2p.Lib.MinHeap
import Ethp2p.Strategy.Basic

namespace Ethp2p

/-- Fibonacci-hash constant. -/
def fibonacci : UInt64 := 0x9E3779B97F4A7C15

/-- Planner mode: origins are unconstrained, relays send a shard at most `forwardMultiplier`
times. -/
inductive PlannerMode where
  | origin
  | relay (forwardMultiplier : UInt32)
deriving DecidableEq, Repr

/-- Min-heap entry, ordered by allocation count, then by Fibonacci priority, then by index. -/
structure EmitEntry where
  allocation : UInt32
  fib : Nat
  idx : Nat
deriving DecidableEq, Repr

namespace EmitEntry

/-- The comparison key, compared lexicographically. -/
def key (e : EmitEntry) : Nat ×ₗ Nat ×ₗ Nat := toLex (e.allocation.toNat, toLex (e.fib, e.idx))

theorem key_injective : Function.Injective key := by
  rintro ⟨a, f, i⟩ ⟨b, g, j⟩ h
  simp only [key, EmbeddingLike.apply_eq_iff_eq, Prod.mk.injEq, UInt32.toNat_inj] at h
  obtain ⟨rfl, rfl, rfl⟩ := h
  rfl

instance : LinearOrder EmitEntry := LinearOrder.lift' key key_injective

end EmitEntry

/-- What the planner knows about one peer. -/
structure PeerState where
  inFlight : BTreeSet Nat
  optimisticHavelist : Option BitMap

/-- `PeerState::default()`. -/
instance : Inhabited PeerState := ⟨⟨∅, none⟩⟩

/-- Emit planner. -/
structure EmitPlanner where
  mode : PlannerMode
  numShards : Nat
  seed : UInt64
  heap : MinHeap EmitEntry
  allocation : BTreeMap Nat UInt32
  sentCount : BTreeMap Nat UInt32
  peers : BTreeMap PeerId PeerState

/-- Fibonacci-hashed priority of a shard. -/
def fibPriority (seed : UInt64) (idx : Nat) : Nat :=
  (((seed ^^^ UInt64.ofNat idx) * fibonacci) >>> 32).toNat

/-- Set a bit, ignoring an out-of-range error. -/
def BitMap.setIgnore (b : BitMap) (idx : Nat) : BitMap :=
  match b.set idx with
  | .ok b' => b'
  | .error _ => b

namespace EmitPlanner

/-- One entry per shard, nothing allocated. -/
def new (numShards : Nat) (seed : UInt64) (mode : PlannerMode) : EmitPlanner where
  mode := mode
  numShards := numShards
  seed := seed
  heap := MinHeap.empty.pushAll
    ((List.range numShards).map fun idx => ⟨0, fibPriority seed idx, idx⟩)
  allocation := ∅
  sentCount := ∅
  peers := ∅

/-- Allocation count of a shard, as a number. -/
def allocationCount (pl : EmitPlanner) (idx : Nat) : Nat := (pl.allocation.getD idx 0).toNat

/-- Send count of a shard, as a number. -/
def sentCountOf (pl : EmitPlanner) (idx : Nat) : Nat := (pl.sentCount.getD idx 0).toNat

/-- Update a peer's state, creating the default one first. -/
def modifyPeer (pl : EmitPlanner) (peer : PeerId) (f : PeerState → PeerState) : EmitPlanner :=
  { pl with peers := pl.peers.alter peer fun s => some (f (s.getD default)) }

/-- The forwarding cap, if there is one. -/
def cap (pl : EmitPlanner) : Option Nat :=
  match pl.mode with
  | .origin => none
  | .relay forwardMultiplier => some forwardMultiplier.toNat

/-- What `allocate` does with a popped entry, given the peer's havelist and in-flight set. -/
def sift (pl : EmitPlanner) (s : PeerState) (entry : EmitEntry) : Sift :=
  if entry.allocation ≠ pl.allocation.getD entry.idx 0 then
    .drop
  else if pl.cap.any (entry.allocation.toNat ≥ ·) then
    .skip
  else if s.optimisticHavelist.any (·.get entry.idx) then
    .skip
  else if entry.idx ∈ s.inFlight then
    .skip
  else
    .take

/-- Allocate the next-best shard for `peer`: skip shards at the cap, shards the peer has and shards
in flight to it. -/
def allocate (pl : EmitPlanner) (peer : PeerId) : Option Nat × EmitPlanner :=
  let pl := pl.modifyPeer peer id
  let (chosen, skipped, heap) := pl.heap.scan (pl.sift (pl.peers.getD peer default))
  let heap := heap.pushAll skipped
  match chosen with
  | none => (none, { pl with heap })
  | some e =>
    let pl := { pl with
      allocation := pl.allocation.insert e.idx (pl.allocation.getD e.idx 0 + 1)
      heap := heap.push { e with allocation := e.allocation + 1 } }
    (some e.idx, pl.modifyPeer peer fun s => { s with inFlight := s.inFlight.insert e.idx })

/-- Mark a shard as sent: in the peer's havelist, no longer in flight, one more send. -/
def recordSent (pl : EmitPlanner) (peer : PeerId) (idx : Nat) : EmitPlanner :=
  let pl := pl.modifyPeer peer fun s =>
    { inFlight := s.inFlight.erase idx
      optimisticHavelist :=
        some ((s.optimisticHavelist.getD (BitMap.withCapacity pl.numShards)).setIgnore idx) }
  { pl with sentCount := pl.sentCount.insert idx (pl.sentCount.getD idx 0 + 1) }

/-- Cancel an in-flight allocation without recording it as sent. -/
def cancelInFlight (pl : EmitPlanner) (peer : PeerId) (idx : Nat) : EmitPlanner :=
  pl.modifyPeer peer fun s => { s with inFlight := s.inFlight.erase idx }

/-- Refund one allocation of a shard; a no-op at zero. -/
def refundAllocation (pl : EmitPlanner) (idx : Nat) : EmitPlanner :=
  match pl.allocation[idx]? with
  | some count =>
    if count > 0 then
      let newAlloc := count - 1
      { pl with
        allocation :=
          if newAlloc = 0 then pl.allocation.erase idx else pl.allocation.insert idx newAlloc
        heap := pl.heap.push ⟨newAlloc, fibPriority pl.seed idx, idx⟩ }
    else
      pl
  | none => pl

/-- Remove all state of `peer` and refund every shard still in flight to it. -/
def removePeer (pl : EmitPlanner) (peer : PeerId) : EmitPlanner :=
  match pl.peers[peer]? with
  | none => pl
  | some state =>
    state.inFlight.toList.foldl refundAllocation { pl with peers := pl.peers.erase peer }

/-- Replace the peer's optimistic havelist. -/
def setPeerHavelist (pl : EmitPlanner) (peer : PeerId) (b : BitMap) : EmitPlanner :=
  pl.modifyPeer peer fun s => { s with optimisticHavelist := some b }

/-- The shards in flight to `peer`. -/
def peerInFlight (pl : EmitPlanner) (peer : PeerId) : List Nat :=
  match pl.peers[peer]? with
  | some s => s.inFlight.toList
  | none => []

/-- The peer's optimistic havelist, if any. -/
def peerHavelist (pl : EmitPlanner) (peer : PeerId) : Option BitMap :=
  pl.peers[peer]?.bind (·.optimisticHavelist)

end EmitPlanner

end Ethp2p
