/-
# Ethp2p.Strategy.Rs.Leftovers — what refunds leave in the planner's heap.

`refund_allocation` pushes the shard's corrected entry and leaves the one above it in the heap, stale,
for `allocate` to drop when it pops it.  `allocate` stops at the entry it takes, which is below the stale
one, and pushes the entry at the next count: where the leftover stands at that very count it is not
popped, it comes back to life, and the heap holds the same live entry twice (`failingSends_clutters`).
Each further round of allocate and refund adds one more.

`NoLeftover` is the condition on one operation, read off the state before it: the shard that `allocate`
is about to hand out has no leftover at its next count.  The heap stays `Uncluttered` through a run
exactly as long as every operation meets it (`runOps_uncluttered_iff`).

The induction carries `Tidy`: no two entries are equal, and no entry is below its shard's count.  A
refund then pushes an entry below all of its shard's, so the only push that can repeat an entry is the
one of an allocation.
-/
import Ethp2p.Strategy.Rs.Allocation

namespace Ethp2p

namespace EmitPlanner

variable {pl pl' : EmitPlanner} {p : PeerId} {idx : Nat}

/-! ## The heap without clutter -/

/-- One live entry per shard, no entry twice, and under a forwarding cap no more entries than there are
shards and counts. -/
structure Uncluttered (pl : EmitPlanner) : Prop where
  live : ∀ idx < pl.numShards,
    pl.heap.entries.countP (fun e => e.idx = idx ∧ e.allocation.toNat = pl.allocationCount idx) = 1
  nodup : pl.heap.entries.Nodup
  bounded : ∀ forwardMultiplier, pl.mode = .relay forwardMultiplier →
    pl.heap.entries.length ≤ pl.numShards * (forwardMultiplier.toNat + 1)

/-- The entry of a shard at a count. -/
def entryAt (pl : EmitPlanner) (idx count : Nat) : EmitEntry :=
  ⟨UInt32.ofNat count, fibPriority pl.seed idx, idx⟩

/-- The operation is no allocation of a shard whose entry at the next count is in the heap already. -/
def NoLeftover (pl : EmitPlanner) : PlannerOp → Prop
  | .allocate p => ∀ idx, pl.Cheapest p idx → pl.entryAt idx (pl.allocationCount idx + 1) ∉ pl.heap
  | _ => True

/-- Every operation satisfies `C` in the state it is applied to. -/
def EachOp (C : EmitPlanner → PlannerOp → Prop) : EmitPlanner → List PlannerOp → Prop
  | _, [] => True
  | pl, op :: ops => C pl op ∧ EachOp C (pl.applyOp op) ops

/-- The heap is ranked, no two entries are equal, and every entry lies between its shard's count and the
cap. -/
structure Tidy (pl : EmitPlanner) : Prop extends pl.HeapRanked where
  nodup : pl.heap.entries.Nodup
  above : ∀ entry ∈ pl.heap, pl.allocationCount entry.idx ≤ entry.allocation.toNat
  capped : ∀ cap ∈ pl.cap, ∀ entry ∈ pl.heap, entry.allocation.toNat ≤ cap

/-! ## Entries of a ranked heap -/

/-- The count of the entry, which wraps. -/
@[simp] theorem entryAt_allocation (pl : EmitPlanner) (idx count : Nat) :
    (pl.entryAt idx count).allocation.toNat = count % 2 ^ 32 :=
  UInt32.toNat_ofNat'

/-- An entry of a ranked heap is known by its shard and its count. -/
theorem HeapRanked.eq_entryAt (h : pl.HeapRanked) {entry : EmitEntry} (hentry : entry ∈ pl.heap) :
    entry = pl.entryAt entry.idx entry.allocation.toNat := by
  rw [entryAt, ← h.fib_eq entry hentry, UInt32.ofNat_toNat]

/-- The entry that an allocation pushes is that of the count above. -/
theorem HeapRanked.succ_eq_entryAt (h : pl.HeapRanked) {entry : EmitEntry} (hentry : entry ∈ pl.heap) :
    { entry with allocation := entry.allocation + 1 } = pl.entryAt entry.idx (entry.allocation.toNat + 1) := by
  rw [entryAt, ← h.fib_eq entry hentry, UInt32.ofNat_add, UInt32.ofNat_toNat]
  rfl

/-- The live entry of a shard is in the heap. -/
theorem HeapRanked.live_mem (h : pl.HeapRanked) (hidx : idx < pl.numShards) :
    pl.entryAt idx (pl.allocationCount idx) ∈ pl.heap := by
  obtain ⟨entry, hentry, rfl, hlive⟩ := h.covers idx hidx
  rw [← hlive, ← h.eq_entryAt hentry]
  exact hentry

/-- A heap that holds no entry twice holds one live entry per shard. -/
theorem HeapRanked.countP_live (h : pl.HeapRanked) (hnodup : pl.heap.entries.Nodup)
    (hidx : idx < pl.numShards) :
    pl.heap.entries.countP (fun e => e.idx = idx ∧ e.allocation.toNat = pl.allocationCount idx) = 1 := by
  rw [← List.count_eq_one_of_mem hnodup (h.live_mem hidx), List.count]
  refine List.countP_congr fun e he => ?_
  simp only [decide_eq_true_eq, beq_iff_eq]
  constructor
  · rintro ⟨rfl, hlive⟩
    rw [← hlive]
    exact h.eq_entryAt he
  · rintro rfl
    exact ⟨rfl, (pl.entryAt_allocation idx _).trans (Nat.mod_eq_of_lt (pl.allocationCount_lt idx))⟩

/-- Under a cap, distinct entries are as many as there are shards and counts at most. -/
theorem Tidy.length_le (h : pl.Tidy) {cap : Nat} (hcap : cap ∈ pl.cap) :
    pl.heap.entries.length ≤ pl.numShards * (cap + 1) := by
  rw [← List.toFinset_card_of_nodup h.nodup]
  have hcard : (Finset.range pl.numShards ×ˢ Finset.range (cap + 1)).card = pl.numShards * (cap + 1) := by
    rw [Finset.card_product, Finset.card_range, Finset.card_range]
  rw [← hcard]
  refine Finset.card_le_card_of_injOn (fun e => (e.idx, e.allocation.toNat)) (fun e he => ?_) ?_
  · have hmem : e ∈ pl.heap := List.mem_toFinset.mp he
    simp only [Finset.coe_product, Finset.coe_range, Set.mem_prod, Set.mem_Iio]
    exact ⟨h.within e hmem, Nat.lt_succ_of_le (h.capped cap hcap e hmem)⟩
  · intro e he e' he' heq
    obtain ⟨hidx, halloc⟩ := Prod.mk.inj heq
    rw [h.eq_entryAt (List.mem_toFinset.mp he), h.eq_entryAt (List.mem_toFinset.mp he'), hidx, halloc]

/-- A tidy planner is uncluttered. -/
theorem Tidy.uncluttered (h : pl.Tidy) : pl.Uncluttered where
  live _ hidx := h.countP_live h.nodup hidx
  nodup := h.nodup
  bounded forwardMultiplier hmode := h.length_le (by rw [cap, hmode]; rfl)

/-- A new planner is tidy. -/
theorem new_tidy (numShards : Nat) (seed : UInt64) (mode : PlannerMode) :
    (new numShards seed mode).Tidy := by
  have hzero : ∀ entry ∈ (new numShards seed mode).heap, entry.allocation = 0 := by
    intro entry hentry
    have hmem : ∃ i < numShards, ⟨0, fibPriority seed i, i⟩ = entry := by simpa [new] using hentry
    obtain ⟨i, -, rfl⟩ := hmem
    rfl
  refine ⟨new_heapRanked numShards seed mode, ?_, fun entry hentry => ?_, fun cap _ entry hentry => ?_⟩
  · refine (MinHeap.perm_pushAll _ _).nodup_iff.mpr ?_
    have hinj : Function.Injective fun i => (⟨0, fibPriority seed i, i⟩ : EmitEntry) :=
      fun i j hij => (EmitEntry.mk.inj hij).2.2
    simpa [MinHeap.empty] using List.nodup_range.map hinj
  · simp [allocationCount, new]
  · rw [hzero entry hentry]
    exact Nat.zero_le cap

/-! ## One allocation -/

/-- **What an allocation does to the heap.**  It drops entries and puts the rest back; if it takes one, it
puts back everything beyond that entry and pushes the entry counting one more. -/
theorem allocate_heap (pl : EmitPlanner) (p : PeerId) :
    (∃ pl', pl.allocate p = (none, pl') ∧ pl'.heap.entries.Subperm pl.heap.entries)
    ∨ ∃ taken kept pl', pl.allocate p = (some taken.idx, pl')
      ∧ taken.allocation.toNat = pl.allocationCount taken.idx
      ∧ (∀ cap ∈ pl.cap, taken.allocation.toNat < cap)
      ∧ (taken :: kept).Subperm pl.heap.entries
      ∧ (∀ entry ∈ pl.heap, taken < entry → entry ∈ kept)
      ∧ pl'.heap.entries.Perm ({ taken with allocation := taken.allocation + 1 } :: kept) := by
  have hstate : (pl.modifyPeer p id).peers.getD p default = pl.peerState p :=
    (pl.modifyPeer_id_sameCounts p).peerState_eq p
  have hsift : (pl.modifyPeer p id).sift (pl.peerState p) = pl.sift (pl.peerState p) := rfl
  have hheap : (pl.modifyPeer p id).heap.entries = pl.heap.entries := rfl
  have hsub := scanList_subperm (pl.sift (pl.peerState p)) pl.heap.entries
  unfold allocate
  simp only [MinHeap.scan, hstate, hsift, hheap]
  cases hchosen : (scanList (pl.sift (pl.peerState p)) pl.heap.entries).1 with
  | none =>
    left
    rw [hchosen] at hsub
    exact ⟨_, rfl, (MinHeap.perm_pushAll _ _).subperm.trans hsub⟩
  | some taken =>
    right
    rw [hchosen, Option.toList_some, List.singleton_append] at hsub
    have helig := sift_eq_take.mp (scanList_taken hchosen).2
    exact ⟨taken, _, _, rfl, helig.live, helig.below_cap, hsub,
      fun entry hentry hlt => List.mem_append_right _
        (scanList_beyond pl.heap.sorted hchosen hentry hlt),
      (MinHeap.perm_push _ _).trans ((MinHeap.perm_pushAll _ _).cons _)⟩

theorem cap_eq (hmode : pl'.mode = pl.mode) : pl'.cap = pl.cap := by
  rw [cap, cap, hmode]

/-- An allocation that meets no leftover leaves the heap tidy. -/
theorem Tidy.allocate (h : pl.Tidy) (hno : pl.NoLeftover (.allocate p)) : (pl.allocate p).2.Tidy := by
  have hranked := h.toHeapRanked.allocate p
  have hspec := h.allocate_spec p
  rcases pl.allocate_heap p with
    ⟨pl', hal, hsub⟩ | ⟨taken, kept, pl', hal, hlive, hbelow, hsub, -, hperm⟩
  · rw [hal] at hspec hranked ⊢
    obtain ⟨-, hsame⟩ := hspec
    refine ⟨hranked, nodup_of_subperm hsub h.nodup, fun entry hentry => ?_, fun cap hcap entry hentry => ?_⟩
    · rw [allocationCount, hsame.allocation_eq]
      exact h.above entry (hsub.subset hentry)
    · exact h.capped cap (cap_eq hsame.mode_eq ▸ hcap) entry (hsub.subset hentry)
  · rw [hal] at hspec hranked ⊢
    obtain ⟨hcheap, hall⟩ := hspec
    have htaken : taken ∈ pl.heap := hsub.subset List.mem_cons_self
    obtain ⟨hfresh, hkept⟩ := List.nodup_cons.mp (nodup_of_subperm hsub h.nodup)
    have hold : ∀ entry ∈ kept, entry ∈ pl.heap := fun entry he =>
      hsub.subset (List.mem_cons_of_mem taken he)
    -- the pushed entry is the one that the condition keeps out of the heap
    have hpushed : { taken with allocation := taken.allocation + 1 }
        = pl.entryAt taken.idx (pl.allocationCount taken.idx + 1) := hlive ▸ h.succ_eq_entryAt htaken
    have hmem : ∀ entry ∈ pl'.heap,
        entry = pl.entryAt taken.idx (pl.allocationCount taken.idx + 1) ∨ entry ∈ kept := by
      intro entry he
      rw [← hpushed]
      exact List.mem_cons.mp (hperm.subset he)
    refine ⟨hranked, ?_, fun entry hentry => ?_, fun cap hcap entry hentry => ?_⟩
    · rw [hperm.nodup_iff, hpushed, List.nodup_cons]
      exact ⟨fun hin => hno taken.idx hcheap (hold _ hin), hkept⟩
    · rw [hall.allocationCount_eq]
      rcases hmem entry hentry with rfl | hin
      · rw [entryAt_allocation]
        exact (if_pos rfl).le
      · split
        case isTrue hidx =>
          -- a kept entry of the shard is not the taken one, so it is above it, and the count has not wrapped
          have habove : pl.allocationCount entry.idx < entry.allocation.toNat := by
            refine Nat.lt_of_le_of_ne (h.above entry (hold entry hin)) fun heq => hfresh ?_
            rw [h.eq_entryAt htaken, hlive, ← hidx, heq, ← h.eq_entryAt (hold entry hin)]
            exact hin
          exact (Nat.mod_le _ _).trans habove
        case isFalse => exact h.above entry (hold entry hin)
    · rw [cap_eq hall.mode_eq] at hcap
      rcases hmem entry hentry with rfl | hin
      · rw [entryAt_allocation]
        exact (Nat.mod_le _ _).trans (hlive ▸ hbelow cap hcap)
      · exact h.capped cap hcap entry (hold entry hin)

/-- An allocation that meets a leftover repeats it. -/
theorem Tidy.noLeftover (h : pl.Tidy) (hnodup : (pl.allocate p).2.heap.entries.Nodup) :
    pl.NoLeftover (.allocate p) := by
  intro idx hcheap hleft
  have hspec := h.allocate_spec p
  rcases pl.allocate_heap p with
    ⟨pl', hal, -⟩ | ⟨taken, kept, pl', hal, hlive, -, hsub, hbeyond, hperm⟩
  · rw [hal] at hspec
    exact hspec.1 idx hcheap.isOpen
  · rw [hal] at hspec hnodup
    obtain rfl : idx = taken.idx := hcheap.unique hspec.1
    have htaken : taken = pl.entryAt taken.idx (pl.allocationCount taken.idx) :=
      hlive ▸ h.eq_entryAt (hsub.subset List.mem_cons_self)
    have hpushed : { taken with allocation := taken.allocation + 1 }
        = pl.entryAt taken.idx (pl.allocationCount taken.idx + 1) :=
      hlive ▸ h.succ_eq_entryAt (hsub.subset List.mem_cons_self)
    -- the leftover is above the count, so the count above is not past the last one
    have habove := h.above _ hleft
    rw [entryAt_allocation] at habove
    have hcount : taken.allocation.toNat < (pl.allocationCount taken.idx + 1) % 2 ^ 32 := by
      have hlast := pl.allocationCount_lt taken.idx
      simp only [entryAt] at habove
      omega
    have hlt : taken < pl.entryAt taken.idx (pl.allocationCount taken.idx + 1) := by
      refine Prod.Lex.toLex_lt_toLex.mpr (.inl ?_)
      rwa [entryAt_allocation]
    rw [hperm.nodup_iff, hpushed, List.nodup_cons] at hnodup
    exact hnodup.1 (hbeyond _ hleft hlt)

/-! ## Refunds -/

/-- A refund keeps the heap tidy: its entry is below every other of the shard. -/
theorem Tidy.refundAllocation (h : pl.Tidy) (idx : Nat) : (pl.refundAllocation idx).Tidy := by
  rcases pl.refundAllocation_cases idx with ⟨heq, -⟩ | ⟨count, hget, hcountpos, heq⟩
  · rw [heq]
    exact h
  have hread := allocationCount_of_get hget
  have hpos : 0 < pl.allocationCount idx := hread ▸ UInt32.lt_iff_toNat_lt.mp hcountpos
  have hheap : (pl.refundAllocation idx).heap = pl.heap.push (pl.entryAt idx (pl.allocationCount idx - 1)) := by
    rw [heq, entryAt, hread, ← toNat_pred hcountpos, UInt32.ofNat_toNat]
  have hcount := (pl.refundAllocation_spec idx).1
  have hmem : ∀ entry ∈ (pl.refundAllocation idx).heap,
      entry = pl.entryAt idx (pl.allocationCount idx - 1) ∨ entry ∈ pl.heap := by
    intro entry he
    rw [hheap] at he
    exact (MinHeap.mem_push _ _ _).mp he
  refine ⟨h.toHeapRanked.refundAllocation idx, ?_, fun entry hentry => ?_, fun cap hcap entry hentry => ?_⟩
  -- the entry is below the count of its shard, and no entry in the heap is
  · rw [hheap, MinHeap.nodup_push]
    refine ⟨fun hin => ?_, h.nodup⟩
    have habove : pl.allocationCount idx ≤ (pl.allocationCount idx - 1) % 2 ^ 32 :=
      (h.above _ hin).trans_eq (pl.entryAt_allocation idx _)
    omega
  · rw [hcount]
    rcases hmem entry hentry with rfl | hin
    · rw [entryAt_allocation, Nat.mod_eq_of_lt (Nat.lt_of_le_of_lt (Nat.sub_le _ 1) (pl.allocationCount_lt idx))]
      exact (if_pos rfl).le
    · have habove := h.above entry hin
      split
      · omega
      · exact habove
  · rw [cap_eq (pl.refundAllocation_mode idx)] at hcap
    rcases hmem entry hentry with rfl | hin
    · have hlive := h.capped cap hcap _ (h.live_mem (h.allocated idx hpos.ne'))
      rw [entryAt_allocation] at hlive ⊢
      have hlast := pl.allocationCount_lt idx
      omega
    · exact h.capped cap hcap entry hin

/-- An operation that touches neither the heap nor the counts. -/
theorem Tidy.congr (h : pl.Tidy) (hheap : pl'.heap = pl.heap) (halloc : pl'.allocation = pl.allocation)
    (hnum : pl'.numShards = pl.numShards) (hseed : pl'.seed = pl.seed) (hmode : pl'.mode = pl.mode) :
    pl'.Tidy where
  toHeapRanked := h.toHeapRanked.congr hheap halloc hnum hseed
  nodup := hheap ▸ h.nodup
  above entry hentry := by
    rw [allocationCount, halloc]
    exact h.above entry (hheap ▸ hentry)
  capped cap hcap entry hentry := h.capped cap (cap_eq hmode ▸ hcap) entry (hheap ▸ hentry)

/-- A peer whose flights are refunded without leftovers leaves the planner tidy. -/
theorem Tidy.removePeer (h : pl.Tidy) (p : PeerId) : (pl.removePeer p).Tidy := by
  have hfold : ∀ (l : List Nat) {pl : EmitPlanner}, pl.Tidy →
      (l.foldl EmitPlanner.refundAllocation pl).Tidy := by
    intro l
    induction l with
    | nil => exact fun h => h
    | cons i l ih => exact fun h => ih (h.refundAllocation i)
  unfold EmitPlanner.removePeer
  split
  · exact h
  · exact hfold _ (h.congr rfl rfl rfl rfl rfl)

/-! ## Runs -/

/-- An operation keeps a tidy heap free of clutter exactly if it meets no leftover. -/
theorem Tidy.applyOp (h : pl.Tidy) {op : PlannerOp} (hno : pl.NoLeftover op) : (pl.applyOp op).Tidy := by
  cases op with
  | allocate p => exact h.allocate hno
  | recordSent p idx => exact h.congr rfl rfl rfl rfl rfl
  | cancelInFlight p idx => exact h.congr rfl rfl rfl rfl rfl
  | refundAllocation idx => exact h.refundAllocation idx
  | removePeer p => exact h.removePeer p
  | setPeerHavelist p b => exact h.congr rfl rfl rfl rfl rfl

theorem Tidy.noLeftover_of_applyOp (h : pl.Tidy) {op : PlannerOp}
    (hnodup : (pl.applyOp op).heap.entries.Nodup) : pl.NoLeftover op := by
  cases op with
  | allocate p => exact h.noLeftover hnodup
  | recordSent _ _ | cancelInFlight _ _ | refundAllocation _ | removePeer _ | setPeerHavelist _ _ =>
    trivial

/-- **A run stays uncluttered exactly as long as no operation leaves an entry over.** -/
theorem Tidy.uncluttered_iff (h : pl.Tidy) (ops : List PlannerOp) :
    (∀ before, before <+: ops → (pl.runOps before).Uncluttered) ↔ pl.EachOp NoLeftover ops := by
  induction ops generalizing pl with
  | nil =>
    refine ⟨fun _ => trivial, fun _ before hbefore => ?_⟩
    rw [List.prefix_nil.mp hbefore]
    exact h.uncluttered
  | cons op ops ih =>
    constructor
    · intro hall
      have hno := h.noLeftover_of_applyOp (hall [op] ⟨ops, rfl⟩).nodup
      refine ⟨hno, (ih (h.applyOp hno)).mp fun before hbefore => ?_⟩
      exact hall (op :: before) (List.cons_prefix_cons.mpr ⟨rfl, hbefore⟩)
    · rintro ⟨hno, hrest⟩ before hbefore
      rcases List.prefix_cons_iff.mp hbefore with rfl | ⟨before', rfl, hbefore'⟩
      · exact h.uncluttered
      · exact (ih (h.applyOp hno)).mpr hrest before' hbefore'

/-- **The heap stays uncluttered exactly while no allocation meets a leftover.**  In every run of a new
planner the heap has one live entry per shard, no entry twice and, in relay mode, at most
`num_shards * (forward_multiplier + 1)` entries in every state reached, if and only if no `allocate` of
the run hands out a shard whose entry at the next count an earlier refund has left in the heap. -/
theorem runOps_uncluttered_iff (numShards : Nat) (seed : UInt64) (mode : PlannerMode)
    (ops : List PlannerOp) :
    (∀ before, before <+: ops → ((new numShards seed mode).runOps before).Uncluttered)
      ↔ (new numShards seed mode).EachOp NoLeftover ops :=
  (new_tidy numShards seed mode).uncluttered_iff ops

/-- A relay of one shard and multiplier one, whose sends fail: three allocations, each refunded before the
next. -/
def failingSends : List PlannerOp :=
  [.allocate 1, .cancelInFlight 1 0, .refundAllocation 0,
    .allocate 1, .cancelInFlight 1 0, .refundAllocation 0, .allocate 1]

/-- Three equal live entries, where one shard at multiplier one has room for two. -/
theorem failingSends_clutters :
    ((new 1 7 (.relay 1)).runOps failingSends).heap.entries
        = List.replicate 3 ((new 1 7 (.relay 1)).entryAt 0 1)
      ∧ ((new 1 7 (.relay 1)).runOps failingSends).allocationCount 0 = 1
      ∧ ¬ ((new 1 7 (.relay 1)).runOps failingSends).Uncluttered := by
  have hheap : ((new 1 7 (.relay 1)).runOps failingSends).heap.entries
      = List.replicate 3 ((new 1 7 (.relay 1)).entryAt 0 1) := by decide +kernel
  have hmode : ((new 1 7 (.relay 1)).runOps failingSends).mode = .relay 1 := by decide +kernel
  have hnum : ((new 1 7 (.relay 1)).runOps failingSends).numShards = 1 := by decide +kernel
  refine ⟨hheap, by decide +kernel, fun h => ?_⟩
  have hbound := h.bounded 1 hmode
  rw [hheap, hnum, List.length_replicate] at hbound
  exact absurd hbound (by decide)

end EmitPlanner

end Ethp2p
