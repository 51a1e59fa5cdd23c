/-
# Ethp2p.Strategy.Rs.State — the per-session Reed-Solomon strategy (`strategy/rs/state.rs`).

`RsStrategy` ties the preamble, the accepted chunks, the planner and the handle map together and
implements the `Strategy` interface.  The planner seed, which the source draws from the clock and
the process id, is an argument of the constructors (`new_origin_with_seed`, `new_relay_with_seed`).
-/
import Ethp2p.Strategy.Rs.Codec
import Ethp2p.Strategy.Rs.Planner

namespace Ethp2p

/-- Per-session RS strategy state. -/
structure RsStrategy where
  config : RsConfig
  preamble : Preamble
  chunks : List (Option Bytes)
  planner : EmitPlanner
  attachedPeers : BTreeSet PeerId
  inFlight : BTreeMap DispatchHandle (PeerId × Nat)
  nextHandle : DispatchHandle
  lastRoutingEmittedCount : Nat

namespace RsStrategy

/-- A strategy with no peer and nothing in flight. -/
def withParts (config : RsConfig) (preamble : Preamble) (chunks : List (Option Bytes))
    (planner : EmitPlanner) : RsStrategy where
  config := config
  preamble := preamble
  chunks := chunks
  planner := planner
  attachedPeers := ∅
  inFlight := ∅
  nextHandle := 0
  lastRoutingEmittedCount := 0

/-- Origin strategy: encode the payload up-front, hold every shard. -/
def newOriginWithSeed [Crates] (payload : Bytes) (config : RsConfig) (seed : UInt64) :
    Except EncodeError RsStrategy :=
  match encode payload config with
  | .error e => .error e
  | .ok (preamble, shards) =>
    let total := shards.length % 2 ^ 32
    .ok (withParts config preamble (shards.map some) (EmitPlanner.new total seed .origin))

/-- Total shard count: the wrapped `i32` sum of the preamble's counts, cast to `u32`. -/
def totalOf (preamble : Preamble) : Nat := asU32 (preamble.numData + preamble.numParity)

/-- Relay strategy: validate the preamble, hold nothing, cap the planner. -/
def newRelayWithSeed (preamble : Preamble) (config : RsConfig) (seed : UInt64) :
    Except PreambleError RsStrategy :=
  match validatePreamble preamble with
  | .error e => .error e
  | .ok () =>
    let total := totalOf preamble
    .ok (withParts config preamble (List.replicate total none)
      (EmitPlanner.new total seed (.relay config.forwardMultiplier)))

/-- Number of chunks accepted so far. -/
def acceptedCount (s : RsStrategy) : Nat := s.chunks.countP (·.isSome) % 2 ^ 32

/-- At least `num_data` chunks are held. -/
def canReconstruct (s : RsStrategy) : Bool := s.acceptedCount ≥ asU32 s.preamble.numData

/-- The accepted chunks with their indices, in index order. -/
def heldPairs (s : RsStrategy) : List (Nat × Bytes) :=
  s.chunks.zipIdx.filterMap fun (c, i) => c.map fun d => (i, d)

/-- Reconstruct the payload from the accepted chunks. -/
def reconstruct [Crates] (s : RsStrategy) : Except DecodeError Bytes :=
  Ethp2p.decode s.preamble s.heldPairs

/-- Total shard count. -/
def totalShards (s : RsStrategy) : Nat := totalOf s.preamble

/-- The stored chunk at `idx`, if there is one. -/
def chunkAt (s : RsStrategy) (idx : Nat) : Option Bytes := s.chunks.getD idx none

/-- The local havelist: the bitmap of accepted chunks. -/
def localHavelist (s : RsStrategy) : BitMap :=
  s.chunks.zipIdx.foldl (fun b (slot, i) => if slot.isSome then b.setIgnore i else b)
    (BitMap.withCapacity s.totalShards)

/-- Issue the next dispatch handle. -/
def issueHandle (s : RsStrategy) : DispatchHandle × RsStrategy :=
  (s.nextHandle, { s with nextHandle := s.nextHandle + 1 })

/-- `count` of the shards are at least `bitmap_threshold` percent. -/
def bitmapThresholdReached (s : RsStrategy) (count : Nat) : Bool :=
  if s.totalShards = 0 then
    true
  else
    count * 100 / s.totalShards ≥ s.config.bitmapThreshold

def haveChunk (s : RsStrategy) (idx : Nat) : Bool :=
  if idx ≥ s.totalShards then false else (s.chunkAt idx).isSome

/-- Take an inbound chunk: out of range is an error, a held index is redundant, a hash mismatch is
invalid, anything else is stored. -/
def takeChunk [Crates] (s : RsStrategy) (idx : Nat) (data : Bytes) :
    Except TakeError TakeOutcome × RsStrategy :=
  if idx ≥ s.totalShards then
    (.error (.outOfRange idx s.totalShards), s)
  else if (s.chunkAt idx).isSome then
    (.ok ⟨.redundant, s.canReconstruct⟩, s)
  else
    match Ethp2p.verifyChunk s.preamble idx data with
    | .accepted =>
      let s := { s with chunks := s.chunks.set idx (some data) }
      (.ok ⟨.accepted, s.canReconstruct⟩, s)
    | other => (.ok ⟨other, false⟩, s)

def attachPeer (s : RsStrategy) (peer : PeerId) : RsStrategy :=
  { s with attachedPeers := s.attachedPeers.insert peer }

/-- Detach a peer: forget its handles and its planner state, refunding what was in flight. -/
def detachPeer (s : RsStrategy) (peer : PeerId) (_completed : Bool) : RsStrategy :=
  { s with
    attachedPeers := s.attachedPeers.erase peer
    inFlight := s.inFlight.filter fun _ v => v.1 ≠ peer
    planner := s.planner.removePeer peer }

/-- Merge a peer's bitmap into its havelist and return the handles it makes redundant. -/
def routingUpdate (s : RsStrategy) (peer : PeerId) (update : BitMap) :
    List DispatchHandle × RsStrategy :=
  let merged :=
    match s.planner.peerHavelist peer with
    | some existing =>
      match existing.orMerge update with
      | .ok b => b
      | .error _ => existing
    | none => update
  let s := { s with planner := s.planner.setPeerHavelist peer merged }
  let inFlightIdxs := s.planner.peerInFlight peer
  let redundant := s.inFlight.toList.filter fun (_, p, idx) =>
    p = peer && inFlightIdxs.contains idx && merged.get idx
  (redundant.map (·.1), s)

/-- One poll step per attached peer, in peer order.  A shard the planner hands out but the strategy
does not hold is cancelled and the peer skipped. -/
def pollPeers : List PeerId → RsStrategy → List (ChunkDispatch Nat) × RsStrategy
  | [], s => ([], s)
  | peer :: peers, s =>
    match s.planner.allocate peer with
    | (none, planner) => pollPeers peers { s with planner }
    | (some idx, planner) =>
      match s.chunkAt idx with
      | none => pollPeers peers { s with planner := planner.cancelInFlight peer idx }
      | some payload =>
        let (handle, s) := issueHandle { s with planner }
        let s := { s with inFlight := s.inFlight.insert handle (peer, idx) }
        let (dispatches, s) := pollPeers peers s
        (⟨peer, idx, handle, payload⟩ :: dispatches, s)

def pollChunks (s : RsStrategy) : List (ChunkDispatch Nat) × RsStrategy :=
  pollPeers s.attachedPeers.toList s

/-- The local havelist, when forced or when it changed since the last emission and the threshold is
reached. -/
def pollRouting (s : RsStrategy) (force : Bool) : Option BitMap × RsStrategy :=
  if s.config.disableBitmap && !force then
    (none, s)
  else
    let loc := s.localHavelist
    let count := loc.countOnes
    let crossedThreshold := s.bitmapThresholdReached count
    let changed := count ≠ s.lastRoutingEmittedCount
    if force || (crossedThreshold && changed) then
      (some loc, { s with lastRoutingEmittedCount := count })
    else
      (none, s)

/-- Resolve a dispatch: a success is recorded, a failure is cancelled and refunded.  The planner is
told about the caller's `peer`, not about the one stored with the handle. -/
def chunkSent (s : RsStrategy) (peer : PeerId) (handle : DispatchHandle) (ok : Bool) :
    RsStrategy :=
  match s.inFlight[handle]? with
  | none => s
  | some (_, idx) =>
    let s := { s with inFlight := s.inFlight.erase handle }
    if ok then
      { s with planner := s.planner.recordSent peer idx }
    else
      { s with planner := (s.planner.cancelInFlight peer idx).refundAllocation idx }

def progress (s : RsStrategy) : Nat × Nat := (s.acceptedCount, asU32 s.preamble.numData)

/-- One poll for each shard of each attached peer. -/
def pollBound (s : RsStrategy) : Nat := s.totalShards * s.attachedPeers.toList.length

end RsStrategy

instance [Crates] : Strategy RsStrategy Nat BitMap DecodeError where
  haveChunk := RsStrategy.haveChunk
  verifyChunk s idx data := verifyChunk s.preamble idx data
  takeChunk := RsStrategy.takeChunk
  attachPeer := RsStrategy.attachPeer
  detachPeer := RsStrategy.detachPeer
  routingUpdate := RsStrategy.routingUpdate
  pollChunks := RsStrategy.pollChunks
  pollRouting := RsStrategy.pollRouting
  chunkSent := RsStrategy.chunkSent
  progress := RsStrategy.progress
  decode := RsStrategy.reconstruct
  pollBound := RsStrategy.pollBound

end Ethp2p
