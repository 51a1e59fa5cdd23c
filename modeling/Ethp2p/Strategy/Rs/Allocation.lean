/-
# Ethp2p.Strategy.Rs.Allocation — which shard the planner hands out.

`Cheapest` is the choice as the planner's spec words it: of the shards open to a peer, the one with the
fewest allocations, ties broken by the Fibonacci priority and then by the index.  No heap occurs in it.
`runOps_allocate` says that `allocate` makes this choice in every state a planner can reach.

The heap holds stale entries beside the live ones.  What makes the first live entry the right one is that
every shard has a live entry (`HeapSound.covers`) and that every entry, stale or not, carries the priority
of its own shard (`HeapRanked`): the live entries are then sorted by `rankAt`.
-/
import Ethp2p.Strategy.Rs.PlannerSpec

namespace Ethp2p

namespace EmitPlanner

variable {pl pl' : EmitPlanner} {p : PeerId} {idx : Nat}

/-! ## The plain choice -/

/-- At these counts the shard may go to the peer: it is below the cap, and the peer is neither taken to have
it nor being sent it. -/
structure OpenAt (pl : EmitPlanner) (count : Nat → Nat) (p : PeerId) (idx : Nat) : Prop where
  in_range : idx < pl.numShards
  below_cap : ∀ cap ∈ pl.cap, count idx < cap
  not_had : ∀ b ∈ (pl.peerState p).optimisticHavelist, b.get idx = false
  not_flying : idx ∉ pl.inFlightTo p

/-- What the choice goes by: the count, then the Fibonacci priority, then the index. -/
def rankAt (pl : EmitPlanner) (count : Nat → Nat) (idx : Nat) : Nat ×ₗ Nat ×ₗ Nat :=
  toLex (count idx, toLex (fibPriority pl.seed idx, idx))

/-- At these counts the shard is the first in rank of those open to the peer. -/
structure CheapestAt (pl : EmitPlanner) (count : Nat → Nat) (p : PeerId) (idx : Nat) : Prop where
  isOpen : pl.OpenAt count p idx
  least : ∀ i, pl.OpenAt count p i → pl.rankAt count idx ≤ pl.rankAt count i

/-- The shard may go to the peer, at the planner's allocation counts. -/
abbrev Open (pl : EmitPlanner) (p : PeerId) (idx : Nat) : Prop := pl.OpenAt pl.allocationCount p idx

/-- The shard is the first in rank of those open to the peer, at the planner's allocation counts. -/
abbrev Cheapest (pl : EmitPlanner) (p : PeerId) (idx : Nat) : Prop := pl.CheapestAt pl.allocationCount p idx

/-- No two shards rank the same. -/
theorem rankAt_injective (pl : EmitPlanner) (count : Nat → Nat) : Function.Injective (pl.rankAt count) := by
  intro i j h
  simp only [rankAt, EmbeddingLike.apply_eq_iff_eq, Prod.mk.injEq] at h
  exact h.2.2

/-- There is one cheapest shard at most. -/
theorem CheapestAt.unique {count : Nat → Nat} {i j : Nat} (hi : pl.CheapestAt count p i)
    (hj : pl.CheapestAt count p j) : i = j :=
  pl.rankAt_injective count (le_antisymm (hi.least j hj.isOpen) (hj.least i hi.isOpen))

/-! ## The heap is ranked -/

/-- The heap is sound, and every entry of it carries the priority of its shard. -/
structure HeapRanked (pl : EmitPlanner) : Prop extends pl.HeapSound where
  fib_eq : ∀ entry ∈ pl.heap, entry.fib = fibPriority pl.seed entry.idx

/-- A new planner's heap is ranked by its seed. -/
theorem new_heapRanked (numShards : Nat) (seed : UInt64) (mode : PlannerMode) :
    (new numShards seed mode).HeapRanked := by
  refine ⟨new_heapSound numShards seed mode, fun entry hentry => ?_⟩
  have hmem : ∃ i < numShards, ⟨0, fibPriority seed i, i⟩ = entry := by simpa [new] using hentry
  obtain ⟨i, -, rfl⟩ := hmem
  rfl

/-- What an allocation leaves in the heap was there before, or counts the taken shard once more. -/
theorem mem_heap_allocate {entry : EmitEntry} (h : entry ∈ (pl.allocate p).2.heap) :
    entry ∈ pl.heap
      ∨ ∃ taken ∈ pl.heap, entry = { taken with allocation := taken.allocation + 1 } := by
  have hstate : (pl.modifyPeer p id).peers.getD p default = pl.peerState p :=
    (pl.modifyPeer_id_sameCounts p).peerState_eq p
  have hsift : (pl.modifyPeer p id).sift (pl.peerState p) = pl.sift (pl.peerState p) := rfl
  have hheap : (pl.modifyPeer p id).heap.entries = pl.heap.entries := rfl
  have hold : ∀ e : EmitEntry, e ∈ (scanList (pl.sift (pl.peerState p)) pl.heap.entries).2.1
      ∨ e ∈ (scanList (pl.sift (pl.peerState p)) pl.heap.entries).2.2 → e ∈ pl.heap := by
    rintro e (he | he)
    · exact (scanList_skipped he).1
    · exact (scanList_suffix _ _).subset he
  unfold allocate at h
  simp only [MinHeap.scan, hstate, hsift, hheap] at h
  cases hchosen : (scanList (pl.sift (pl.peerState p)) pl.heap.entries).1 with
  | none =>
    rw [hchosen] at h
    exact .inl (hold entry ((MinHeap.mem_pushAll _ _ _).mp h))
  | some taken =>
    rw [hchosen] at h
    rcases (MinHeap.mem_push _ _ _).mp h with rfl | h
    · exact .inr ⟨taken, (scanList_taken hchosen).1, rfl⟩
    · exact .inl (hold entry ((MinHeap.mem_pushAll _ _ _).mp h))

theorem seed_allocate (pl : EmitPlanner) (p : PeerId) : (pl.allocate p).2.seed = pl.seed := by
  rcases pl.allocate_cases p with ⟨pl', hal, hsame, -⟩ | ⟨entry, pl', hal, -, -, hall⟩
  · rw [hal]
    exact hsame.seed_eq
  · rw [hal]
    exact hall.seed_eq

namespace HeapRanked

theorem allocate (h : pl.HeapRanked) (p : PeerId) : (pl.allocate p).2.HeapRanked where
  toHeapSound := h.toHeapSound.allocate p
  fib_eq entry hentry := by
    rw [seed_allocate]
    rcases mem_heap_allocate hentry with hold | ⟨taken, htaken, rfl⟩
    · exact h.fib_eq entry hold
    · exact h.fib_eq taken htaken

/-- An operation that touches neither the heap nor the counts. -/
theorem congr (h : pl.HeapRanked) (hheap : pl'.heap = pl.heap) (halloc : pl'.allocation = pl.allocation)
    (hnum : pl'.numShards = pl.numShards) (hseed : pl'.seed = pl.seed) : pl'.HeapRanked where
  toHeapSound := h.toHeapSound.congr hheap halloc hnum
  fib_eq entry hentry := by
    rw [hseed]
    exact h.fib_eq entry (hheap ▸ hentry)

theorem refundAllocation (h : pl.HeapRanked) (idx : Nat) : (pl.refundAllocation idx).HeapRanked where
  toHeapSound := h.toHeapSound.refundAllocation idx
  fib_eq entry hentry := by
    rcases pl.refundAllocation_cases idx with ⟨heq, -⟩ | ⟨count, -, -, heq⟩ <;> rw [heq] at hentry ⊢
    · exact h.fib_eq entry hentry
    · rcases (MinHeap.mem_push _ _ _).mp hentry with rfl | hentry
      · rfl
      · exact h.fib_eq entry hentry

theorem removePeer (h : pl.HeapRanked) (p : PeerId) : (pl.removePeer p).HeapRanked := by
  unfold EmitPlanner.removePeer
  split
  · exact h
  · refine List.foldlRecOn (motive := HeapRanked) _ EmitPlanner.refundAllocation (h.congr rfl rfl rfl rfl) ?_
    intro pl hpl idx _
    exact hpl.refundAllocation idx

end HeapRanked

/-! ## Eligible entries and open shards -/

/-- An entry that can be taken is of a shard that is open. -/
theorem HeapSound.open_of_eligible (h : pl.HeapSound) {entry : EmitEntry} (hentry : entry ∈ pl.heap)
    (helig : pl.Eligible p entry) : pl.Open p entry.idx where
  in_range := h.within entry hentry
  below_cap cap hcap := helig.live ▸ helig.below_cap cap hcap
  not_had := helig.not_had
  not_flying := helig.not_flying

/-- Every open shard has an eligible entry. -/
theorem HeapSound.eligible_of_open (h : pl.HeapSound) (hopen : pl.Open p idx) :
    ∃ entry ∈ pl.heap, entry.idx = idx ∧ pl.Eligible p entry := by
  obtain ⟨entry, hentry, rfl, hlive⟩ := h.covers idx hopen.in_range
  exact ⟨entry, hentry, rfl, hlive, fun cap hcap => hlive ▸ hopen.below_cap cap hcap, hopen.not_had,
    hopen.not_flying⟩

/-- A live entry of a ranked heap is keyed by the rank of its shard. -/
theorem HeapRanked.key_eq (h : pl.HeapRanked) {entry : EmitEntry} (hentry : entry ∈ pl.heap)
    (hlive : entry.allocation.toNat = pl.allocationCount entry.idx) : entry.key = pl.rankAt pl.allocationCount entry.idx := by
  rw [EmitEntry.key, rankAt, hlive, h.fib_eq entry hentry]

/-- The entry that is taken comes before every eligible one. -/
theorem allocate_least {pl' : EmitPlanner} {i : Nat} (h : pl.allocate p = (some i, pl')) :
    ∃ entry ∈ pl.heap, entry.idx = i ∧ pl.Eligible p entry
      ∧ ∀ entry' ∈ pl.heap, pl.Eligible p entry' → entry ≤ entry' := by
  have hstate : (pl.modifyPeer p id).peers.getD p default = pl.peerState p :=
    (pl.modifyPeer_id_sameCounts p).peerState_eq p
  have hsift : (pl.modifyPeer p id).sift (pl.peerState p) = pl.sift (pl.peerState p) := rfl
  have hheap : (pl.modifyPeer p id).heap.entries = pl.heap.entries := rfl
  unfold allocate at h
  simp only [MinHeap.scan, hstate, hsift, hheap] at h
  cases hchosen : (scanList (pl.sift (pl.peerState p)) pl.heap.entries).1 with
  | none =>
    rw [hchosen] at h
    cases h
  | some taken =>
    rw [hchosen] at h
    cases h
    obtain ⟨hmem, htake⟩ := scanList_taken hchosen
    exact ⟨taken, hmem, rfl, sift_eq_take.mp htake, fun entry' hentry' helig =>
      scanList_least pl.heap.sorted hchosen entry' hentry' (sift_eq_take.mpr helig)⟩

/-- **`allocate` makes the plain choice.** -/
theorem HeapRanked.allocate_spec (h : pl.HeapRanked) (p : PeerId) :
    match pl.allocate p with
    | (some idx, pl') => pl.Cheapest p idx ∧ Allocated p idx pl pl'
    | (none, pl') => (∀ idx, ¬ pl.Open p idx) ∧ SameCounts pl pl' := by
  rcases pl.allocate_cases p with ⟨pl', hal, hsame, hnone⟩ | ⟨entry, pl', hal, -, -, hall⟩
  · rw [hal]
    refine ⟨fun idx hopen => ?_, hsame⟩
    obtain ⟨entry, hentry, -, helig⟩ := h.toHeapSound.eligible_of_open hopen
    exact hnone entry hentry helig
  · obtain ⟨taken, htaken, hidx, helig, hleast⟩ := allocate_least hal
    rw [hal]
    refine ⟨⟨hidx ▸ h.toHeapSound.open_of_eligible htaken helig, fun i hopen => ?_⟩, hall⟩
    obtain ⟨entry', hentry', rfl, helig'⟩ := h.toHeapSound.eligible_of_open hopen
    rw [← hidx, ← h.key_eq htaken helig.live, ← h.key_eq hentry' helig'.live]
    exact hleast entry' hentry' helig'

/-! ## Runs -/

/-- One operation of a planner. -/
inductive PlannerOp where
  | allocate (p : PeerId)
  | recordSent (p : PeerId) (idx : Nat)
  | cancelInFlight (p : PeerId) (idx : Nat)
  | refundAllocation (idx : Nat)
  | removePeer (p : PeerId)
  | setPeerHavelist (p : PeerId) (b : BitMap)

/-- Apply one operation. -/
def applyOp (pl : EmitPlanner) : PlannerOp → EmitPlanner
  | .allocate p => (pl.allocate p).2
  | .recordSent p idx => pl.recordSent p idx
  | .cancelInFlight p idx => pl.cancelInFlight p idx
  | .refundAllocation idx => pl.refundAllocation idx
  | .removePeer p => pl.removePeer p
  | .setPeerHavelist p b => pl.setPeerHavelist p b

/-- Apply operations in turn. -/
def runOps (pl : EmitPlanner) (ops : List PlannerOp) : EmitPlanner := ops.foldl applyOp pl

/-- Every operation keeps the heap ranked. -/
theorem HeapRanked.applyOp (h : pl.HeapRanked) (op : PlannerOp) : (pl.applyOp op).HeapRanked := by
  cases op with
  | allocate p => exact h.allocate p
  | recordSent p idx => exact h.congr rfl rfl rfl rfl
  | cancelInFlight p idx => exact h.congr rfl rfl rfl rfl
  | refundAllocation idx => exact h.refundAllocation idx
  | removePeer p => exact h.removePeer p
  | setPeerHavelist p b => exact h.congr rfl rfl rfl rfl

theorem HeapRanked.runOps (ops : List PlannerOp) (h : pl.HeapRanked) : (pl.runOps ops).HeapRanked := by
  induction ops generalizing pl with
  | nil => exact h
  | cons op ops ih => exact ih (h.applyOp op)

/-- **In every state a planner reaches, `allocate` makes the plain choice**: it hands out the cheapest
shard open to the peer, if any is open, counts one allocation of it and puts it in flight to the peer;
if none is open it changes nothing.  The count is one higher unless it stood at the last 32-bit number. -/
theorem runOps_allocate (numShards : Nat) (seed : UInt64) (mode : PlannerMode) (ops : List PlannerOp)
    (p : PeerId) :
    match ((new numShards seed mode).runOps ops).allocate p with
    | (some idx, pl') => ((new numShards seed mode).runOps ops).Cheapest p idx
      ∧ Allocated p idx ((new numShards seed mode).runOps ops) pl'
      ∧ (((new numShards seed mode).runOps ops).allocationCount idx + 1 < 2 ^ 32 →
        pl'.allocationCount idx = ((new numShards seed mode).runOps ops).allocationCount idx + 1)
    | (none, pl') => (∀ idx, ¬ ((new numShards seed mode).runOps ops).Open p idx)
      ∧ SameCounts ((new numShards seed mode).runOps ops) pl' := by
  have hspec := ((new_heapRanked numShards seed mode).runOps ops).allocate_spec p
  generalize ((new numShards seed mode).runOps ops).allocate p = result at hspec ⊢
  obtain ⟨_ | idx, pl'⟩ := result
  · exact hspec
  · obtain ⟨hcheap, hall⟩ := hspec
    refine ⟨hcheap, hall, fun hroom => ?_⟩
    rw [hall.allocationCount_eq, if_pos rfl, Nat.mod_eq_of_lt hroom]

/-- The one shard of an origin, which peer 1 is neither taken to have nor being sent, is allocated. -/
theorem allocate_only (h : pl.HeapRanked) (hnum : pl.numShards = 1) (hmode : pl.mode = .origin)
    (hhave : (pl.peerState 1).optimisticHavelist = none) (hfree : 0 ∉ pl.inFlightTo 1) :
    ∃ pl', pl.allocate 1 = (some 0, pl') ∧ Allocated 1 0 pl pl' := by
  have hopen : pl.Open 1 0 := by
    refine ⟨by omega, fun cap hcap => ?_, fun b hb => ?_, hfree⟩
    · rw [EmitPlanner.cap, hmode] at hcap
      cases hcap
    · rw [hhave] at hb
      cases hb
  have hspec := h.allocate_spec 1
  generalize pl.allocate 1 = result at hspec ⊢
  obtain ⟨_ | idx, pl'⟩ := result
  · exact absurd hopen (hspec.1 0)
  · obtain rfl : idx = 0 := by
      have hlt := hspec.1.isOpen.in_range
      omega
    exact ⟨pl', rfl, hspec.2⟩

/-- A shard is allocated to a peer and cancelled again, `n` times. -/
def cancelledRounds (n : Nat) : List PlannerOp :=
  (List.range n).flatMap fun _ => [.allocate 1, .cancelInFlight 1 0]

/-- The planner after so many rounds: each has raised the count, and left nothing in flight. -/
structure Rounded (pl : EmitPlanner) (n : Nat) : Prop extends pl.HeapRanked where
  numShards_eq : pl.numShards = 1
  mode_eq : pl.mode = .origin
  unaware : (pl.peerState 1).optimisticHavelist = none
  free : 0 ∉ pl.inFlightTo 1
  counted : pl.allocationCount 0 = n % 2 ^ 32

/-- One more round: the count is one more, and so is the entry's. -/
theorem Rounded.next {n : Nat} (h : pl.Rounded n) : ((pl.allocate 1).2.cancelInFlight 1 0).Rounded (n + 1) := by
  obtain ⟨pl', hal, hall⟩ := allocate_only h.toHeapRanked h.numShards_eq h.mode_eq h.unaware h.free
  have hranked := h.toHeapRanked.allocate 1
  rw [hal] at hranked ⊢
  refine ⟨hranked.congr rfl rfl rfl rfl, hall.numShards_eq.trans h.numShards_eq, hall.mode_eq.trans h.mode_eq,
    ?_, ?_, ?_⟩
  · rw [peerState_cancelInFlight, if_pos rfl, hall.peerState_eq, if_pos rfl]
    exact h.unaware
  · rw [inFlightTo_cancelInFlight, if_pos rfl, BTreeSet.mem_erase_iff]
    exact fun hmem => hmem.1 rfl
  · show pl'.allocationCount 0 = _
    rw [hall.allocationCount_eq, if_pos rfl, h.counted, Nat.mod_add_mod]

/-- `n` rounds that are cancelled leave the count at `n`, by induction on `n`. -/
theorem runOps_cancelledRounds (n : Nat) : ((new 1 7 .origin).runOps (cancelledRounds n)).Rounded n := by
  induction n with
  | zero =>
    refine ⟨new_heapRanked 1 7 .origin, rfl, rfl, ?_, ?_, ?_⟩
    · decide +kernel
    · decide +kernel
    · decide +kernel
  | succ n ih =>
    have hnext : (new 1 7 .origin).runOps (cancelledRounds (n + 1))
        = (((new 1 7 .origin).runOps (cancelledRounds n)).allocate 1).2.cancelInFlight 1 0 := by
      simp [cancelledRounds, List.range_succ, runOps, applyOp]
    rw [hnext]
    exact ih.next

/-- The last of `2 ^ 32` rounds finds the count at the last 32-bit number and takes it back to zero. -/
theorem runOps_allocate_wraps :
    ((new 1 7 .origin).runOps (cancelledRounds (2 ^ 32 - 1))).allocationCount 0 = 2 ^ 32 - 1
    ∧ ∃ pl', ((new 1 7 .origin).runOps (cancelledRounds (2 ^ 32 - 1))).allocate 1 = (some 0, pl')
      ∧ pl'.allocationCount 0 = 0 := by
  have h := runOps_cancelledRounds (2 ^ 32 - 1)
  obtain ⟨pl', hal, hall⟩ := allocate_only h.toHeapRanked h.numShards_eq h.mode_eq h.unaware h.free
  refine ⟨h.counted, pl', hal, ?_⟩
  rw [hall.allocationCount_eq, if_pos rfl, h.counted]
  norm_num

end EmitPlanner

end Ethp2p
