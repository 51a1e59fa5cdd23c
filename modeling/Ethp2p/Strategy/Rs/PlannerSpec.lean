/-
# Ethp2p.Strategy.Rs.PlannerSpec — what each planner operation does to the counts.

The planner is read through `allocationCount` and `sentCountOf` of a shard and `inFlightTo` a peer.
Each operation is described by what it does to them; the heap is only an implementation of the choice,
and what it must contain for the choice to be complete is `HeapSound`.
-/
import Ethp2p.Strategy.Rs.Planner

namespace Ethp2p

open Std

namespace EmitPlanner

/-! ## Reading the planner -/

/-- What the planner knows about a peer, the default if nothing. -/
def peerState (pl : EmitPlanner) (p : PeerId) : PeerState := pl.peers.getD p default

/-- The shards in flight to a peer. -/
def inFlightTo (pl : EmitPlanner) (p : PeerId) : BTreeSet Nat := (pl.peerState p).inFlight

/-- A count is a 32-bit number. -/
theorem allocationCount_lt (pl : EmitPlanner) (idx : Nat) : pl.allocationCount idx < 2 ^ 32 :=
  UInt32.toNat_lt _

theorem sentCountOf_lt (pl : EmitPlanner) (idx : Nat) : pl.sentCountOf idx < 2 ^ 32 := UInt32.toNat_lt _

/-- Raising a 32-bit count. -/
theorem toNat_succ (count : UInt32) : (count + 1).toNat = (count.toNat + 1) % 2 ^ 32 := UInt32.toNat_add _ _

theorem allocationCount_of_get {pl : EmitPlanner} {idx : Nat} {count : UInt32}
    (h : pl.allocation[idx]? = some count) : pl.allocationCount idx = count.toNat := by
  rw [allocationCount, ExtTreeMap.getD_eq_getD_getElem?, h, Option.getD_some]

/-- An update of one peer's state leaves the others'. -/
theorem peerState_modifyPeer (pl : EmitPlanner) (p q : PeerId) (f : PeerState → PeerState) :
    (pl.modifyPeer p f).peerState q = if p = q then f (pl.peerState p) else pl.peerState q := by
  simp only [peerState, modifyPeer, ExtTreeMap.getD_eq_getD_getElem?, BTreeMap.get_alter]
  split <;> rfl

/-! ## Allocation -/

/-- Everything the counts can see of an allocation of `idx` to `p`.  The count of the shard is raised by
one, and wraps at `2 ^ 32`. -/
structure Allocated (p : PeerId) (idx : Nat) (pl pl' : EmitPlanner) : Prop where
  allocationCount_eq : ∀ i, pl'.allocationCount i
    = if i = idx then (pl.allocationCount i + 1) % 2 ^ 32 else pl.allocationCount i
  sentCount_eq : pl'.sentCount = pl.sentCount
  peerState_eq : ∀ q, pl'.peerState q = if p = q
    then { pl.peerState p with inFlight := (pl.inFlightTo p).insert idx } else pl.peerState q
  mode_eq : pl'.mode = pl.mode
  numShards_eq : pl'.numShards = pl.numShards
  seed_eq : pl'.seed = pl.seed

/-- Everything the counts can see of an operation that changes none of them. -/
structure SameCounts (pl pl' : EmitPlanner) : Prop where
  allocation_eq : pl'.allocation = pl.allocation
  sentCount_eq : pl'.sentCount = pl.sentCount
  peerState_eq : ∀ q, pl'.peerState q = pl.peerState q
  mode_eq : pl'.mode = pl.mode
  numShards_eq : pl'.numShards = pl.numShards
  seed_eq : pl'.seed = pl.seed

/-- Creating a peer's default state is invisible. -/
theorem modifyPeer_id_sameCounts (pl : EmitPlanner) (p : PeerId) :
    SameCounts pl (pl.modifyPeer p id) := by
  refine ⟨rfl, rfl, fun q => ?_, rfl, rfl, rfl⟩
  rw [peerState_modifyPeer]
  split
  case isTrue h => rw [← h]; rfl
  case isFalse => rfl

/-- The entry is live, below the cap, not had by the peer and not in flight to it. -/
structure Eligible (pl : EmitPlanner) (p : PeerId) (entry : EmitEntry) : Prop where
  live : entry.allocation.toNat = pl.allocationCount entry.idx
  below_cap : ∀ cap ∈ pl.cap, entry.allocation.toNat < cap
  not_had : ∀ b ∈ (pl.peerState p).optimisticHavelist, b.get entry.idx = false
  not_flying : entry.idx ∉ pl.inFlightTo p

/-- An entry is taken exactly if it is eligible for the peer. -/
theorem sift_eq_take {pl : EmitPlanner} {p : PeerId} {entry : EmitEntry} :
    pl.sift (pl.peerState p) entry = .take ↔ pl.Eligible p entry := by
  unfold sift
  -- the tests in the order of the loop: stale, at the cap, in the havelist, in flight
  constructor
  · intro h
    split at h
    · cases h
    case isFalse hlive =>
      split at h
      · cases h
      case isFalse hcap =>
        split at h
        · cases h
        case isFalse hhad =>
          split at h
          · cases h
          case isFalse hfly =>
            refine ⟨congrArg UInt32.toNat (not_not.mp hlive), fun cap hc => ?_, fun b hb => ?_, hfly⟩
            · simpa [Option.mem_def.mp hc] using hcap
            · simpa [Option.mem_def.mp hb] using hhad
  · rintro ⟨hlive, hcap, hhad, hfly⟩
    have hcap' : ¬ pl.cap.any (entry.allocation.toNat ≥ ·) := by
      cases hc : pl.cap with
      | none => simp
      | some cap => simpa using hcap cap hc
    have hhad' : ¬ (pl.peerState p).optimisticHavelist.any (·.get entry.idx) := by
      cases hb : (pl.peerState p).optimisticHavelist with
      | none => simp
      | some b => simpa using hhad b hb
    have hfly' : ¬ entry.idx ∈ (pl.peerState p).inFlight := hfly
    rw [if_neg (not_not.mpr (UInt32.toNat_inj.mp hlive)), if_neg hcap', if_neg hhad', if_neg hfly']

/-- **What `allocate` does.**  Either it finds no eligible entry in the heap and changes nothing the
counts can see, or it allocates the shard of an eligible entry. -/
theorem allocate_cases (pl : EmitPlanner) (p : PeerId) :
    (∃ pl', pl.allocate p = (none, pl') ∧ SameCounts pl pl'
      ∧ (∀ entry ∈ pl.heap, ¬ pl.Eligible p entry))
    ∨ ∃ entry pl', pl.allocate p = (some entry.idx, pl') ∧ entry ∈ pl.heap
      ∧ pl.Eligible p entry ∧ Allocated p entry.idx pl pl' := by
  have hsame := pl.modifyPeer_id_sameCounts p
  have hstate : (pl.modifyPeer p id).peers.getD p default = pl.peerState p := hsame.peerState_eq p
  have hsift : (pl.modifyPeer p id).sift (pl.peerState p) = pl.sift (pl.peerState p) := rfl
  unfold allocate
  simp only [MinHeap.scan, hstate, hsift]
  -- the scan takes the first eligible entry, or goes through the heap and finds none
  cases hchosen : (scanList (pl.sift (pl.peerState p)) (pl.modifyPeer p id).heap.entries).1 with
  | none =>
    left
    refine ⟨_, rfl, ⟨rfl, rfl, hsame.peerState_eq, rfl, rfl, rfl⟩, fun entry hentry helig => ?_⟩
    exact scanList_none hchosen entry hentry (sift_eq_take.mpr helig)
  | some entry =>
    right
    obtain ⟨hmem, htake⟩ := scanList_taken hchosen
    refine ⟨entry, _, rfl, hmem, sift_eq_take.mp htake, fun i => ?_, rfl, fun q => ?_, rfl, rfl, rfl⟩
    · simp only [allocationCount, modifyPeer, ExtTreeMap.getD_eq_getD_getElem?, BTreeMap.get_insert]
      by_cases hi : entry.idx = i
      · subst hi
        rw [if_pos rfl, if_pos rfl, Option.getD_some, toNat_succ]
      · rw [if_neg hi, if_neg (Ne.symm hi)]
    · have hq := hsame.peerState_eq q
      have hp := hsame.peerState_eq p
      refine (peerState_modifyPeer _ p q _).trans ?_
      split
      · show { (pl.modifyPeer p id).peerState p with
          inFlight := ((pl.modifyPeer p id).peerState p).inFlight.insert entry.idx } = _
        rw [hp]
        rfl
      · exact hq

/-! ## The heap -/

/-- The heap and the counts speak of the planner's shards, and the heap has a live entry for each of
them. -/
structure HeapSound (pl : EmitPlanner) : Prop where
  within : ∀ entry ∈ pl.heap, entry.idx < pl.numShards
  allocated : ∀ idx, pl.allocationCount idx ≠ 0 → idx < pl.numShards
  covers : ∀ idx < pl.numShards,
    ∃ entry ∈ pl.heap, entry.idx = idx ∧ entry.allocation.toNat = pl.allocationCount idx

/-- A new planner has one entry a shard, all of count zero. -/
theorem new_heapSound (numShards : Nat) (seed : UInt64) (mode : PlannerMode) :
    (new numShards seed mode).HeapSound := by
  have hmem : ∀ entry, entry ∈ (new numShards seed mode).heap
      ↔ ∃ idx < numShards, ⟨0, fibPriority seed idx, idx⟩ = entry := by
    intro entry
    simp [new]
  refine ⟨fun entry hentry => ?_, fun idx hidx => ?_, fun idx hidx => ?_⟩
  · obtain ⟨idx, hidx, rfl⟩ := (hmem entry).mp hentry
    exact hidx
  · simp [allocationCount, new] at hidx
  · refine ⟨_, (hmem _).mpr ⟨idx, hidx, rfl⟩, rfl, ?_⟩
    simp [allocationCount, new]

/-- The heap of a planner with the same heap and the same counts. -/
theorem HeapSound.congr {pl pl' : EmitPlanner} (h : pl.HeapSound) (hheap : pl'.heap = pl.heap)
    (halloc : pl'.allocation = pl.allocation) (hnum : pl'.numShards = pl.numShards) :
    pl'.HeapSound := by
  refine ⟨fun entry hentry => ?_, fun idx hidx => ?_, fun idx hidx => ?_⟩
  · rw [hnum]
    exact h.within entry (hheap ▸ hentry)
  · rw [hnum]
    rw [allocationCount, halloc] at hidx
    exact h.allocated idx hidx
  · obtain ⟨entry, hentry, hi, ha⟩ := h.covers idx (hnum ▸ hidx)
    exact ⟨entry, hheap ▸ hentry, hi, by rw [ha, allocationCount, allocationCount, halloc]⟩

/-- A popped entry is put back, or counts one more. -/
theorem HeapSound.allocate {pl : EmitPlanner} (h : pl.HeapSound) (p : PeerId) :
    (pl.allocate p).2.HeapSound := by
  have hstate : (pl.modifyPeer p id).peers.getD p default = pl.peerState p :=
    (pl.modifyPeer_id_sameCounts p).peerState_eq p
  -- the scan drops stale entries only: a live one is taken, put back or not reached
  have hkept : ∀ entry ∈ pl.heap, entry.allocation.toNat = pl.allocationCount entry.idx →
      (scanList (pl.sift (pl.peerState p)) pl.heap.entries).1 = some entry
        ∨ entry ∈ (scanList (pl.sift (pl.peerState p)) pl.heap.entries).2.1
        ∨ entry ∈ (scanList (pl.sift (pl.peerState p)) pl.heap.entries).2.2 := by
    intro entry hentry hlive
    refine scanList_keeps hentry fun hdrop => ?_
    unfold sift at hdrop
    rw [if_neg (not_not.mpr (UInt32.toNat_inj.mp hlive))] at hdrop
    split_ifs at hdrop
  have hold : ∀ entry, entry ∈ (scanList (pl.sift (pl.peerState p)) pl.heap.entries).2.1
      ∨ entry ∈ (scanList (pl.sift (pl.peerState p)) pl.heap.entries).2.2 →
      entry.idx < pl.numShards := by
    rintro entry (hentry | hentry)
    · exact h.within entry (scanList_skipped hentry).1
    · exact h.within entry ((scanList_suffix _ _).subset hentry)
  have hsift : (pl.modifyPeer p id).sift (pl.peerState p) = pl.sift (pl.peerState p) := rfl
  have hheap : (pl.modifyPeer p id).heap.entries = pl.heap.entries := rfl
  unfold EmitPlanner.allocate
  simp only [MinHeap.scan, hstate, hsift, hheap]
  cases hchosen : (scanList (pl.sift (pl.peerState p)) pl.heap.entries).1 with
  | none =>
    refine ⟨fun entry hentry => hold entry ?_, h.allocated, fun idx hidx => ?_⟩
    · exact (MinHeap.mem_pushAll _ _ _).mp hentry
    · obtain ⟨entry, hentry, hi, ha⟩ := h.covers idx hidx
      refine ⟨entry, (MinHeap.mem_pushAll _ _ _).mpr ?_, hi, ha⟩
      exact (hkept entry hentry (by rw [ha, hi])).resolve_left (by simp [hchosen])
  | some taken =>
    obtain ⟨htaken, htake⟩ := scanList_taken hchosen
    have hlive := (sift_eq_take.mp htake).live
    have hcount : ∀ i, EmitPlanner.allocationCount
        { pl with allocation := pl.allocation.insert taken.idx (pl.allocation.getD taken.idx 0 + 1) } i
        = if taken.idx = i then (pl.allocationCount taken.idx + 1) % 2 ^ 32 else pl.allocationCount i := by
      intro i
      simp only [allocationCount, ExtTreeMap.getD_eq_getD_getElem?, BTreeMap.get_insert]
      split
      · rw [Option.getD_some, toNat_succ]
      · rfl
    refine ⟨fun entry hentry => ?_, fun idx hidx => ?_, fun idx hidx => ?_⟩
    · rcases (MinHeap.mem_push _ _ _).mp hentry with rfl | hentry
      · exact h.within taken htaken
      · exact hold entry ((MinHeap.mem_pushAll _ _ _).mp hentry)
    · by_cases hi : taken.idx = idx
      · exact hi ▸ h.within taken htaken
      · refine h.allocated idx fun hzero => hidx ((hcount idx).trans ?_)
        rw [if_neg hi, hzero]
    · by_cases hi : taken.idx = idx
      · refine ⟨_, (MinHeap.mem_push _ _ _).mpr (.inl rfl), hi, ?_⟩
        refine Eq.trans ?_ (hcount idx).symm
        rw [if_pos hi, ← hlive, toNat_succ]
      · obtain ⟨entry, hentry, hidx', ha⟩ := h.covers idx hidx
        refine ⟨entry, (MinHeap.mem_push _ _ _).mpr (.inr ((MinHeap.mem_pushAll _ _ _).mpr ?_)),
          hidx', ha.trans ?_⟩
        · refine (hkept entry hentry (by rw [ha, hidx'])).resolve_left fun hsame => hi ?_
          rw [Option.some.inj (hchosen.symm.trans hsame), hidx']
        · refine Eq.trans ?_ (hcount idx).symm
          rw [if_neg hi]

/-! ## The other operations -/

/-- A recorded send counts, and its flight is gone. -/
theorem recordSent_spec (pl : EmitPlanner) (p : PeerId) (idx : Nat) :
    (pl.recordSent p idx).allocation = pl.allocation
      ∧ (∀ i, (pl.recordSent p idx).sentCountOf i
        = if i = idx then (pl.sentCountOf i + 1) % 2 ^ 32 else pl.sentCountOf i)
      ∧ ∀ q, (pl.recordSent p idx).inFlightTo q
        = if p = q then (pl.inFlightTo p).erase idx else pl.inFlightTo q := by
  refine ⟨rfl, fun i => ?_, fun q => ?_⟩
  · simp only [recordSent, sentCountOf, modifyPeer, ExtTreeMap.getD_eq_getD_getElem?,
      BTreeMap.get_insert]
    by_cases hi : idx = i
    · subst hi
      rw [if_pos rfl, if_pos rfl, Option.getD_some, toNat_succ]
    · rw [if_neg hi, if_neg (Ne.symm hi)]
  · have hstate : (pl.recordSent p idx).peerState q = (pl.modifyPeer p fun s =>
        { inFlight := s.inFlight.erase idx
          optimisticHavelist :=
            some ((s.optimisticHavelist.getD (BitMap.withCapacity pl.numShards)).setIgnore idx)
          }).peerState q := rfl
    rw [inFlightTo, hstate, peerState_modifyPeer]
    split <;> rfl

/-- A cancelled dispatch is no longer in flight. -/
theorem inFlightTo_cancelInFlight (pl : EmitPlanner) (p q : PeerId) (idx : Nat) :
    (pl.cancelInFlight p idx).inFlightTo q
      = if p = q then (pl.inFlightTo p).erase idx else pl.inFlightTo q := by
  refine (congrArg PeerState.inFlight (peerState_modifyPeer pl p q _)).trans ?_
  split <;> rfl

theorem inFlightTo_setPeerHavelist (pl : EmitPlanner) (p q : PeerId) (b : BitMap) :
    (pl.setPeerHavelist p b).inFlightTo q = pl.inFlightTo q := by
  refine (congrArg PeerState.inFlight (peerState_modifyPeer pl p q _)).trans ?_
  split
  case isTrue h => rw [← h]; rfl
  case isFalse => rfl

/-- Lowering a 32-bit count that is not zero. -/
theorem toNat_pred {count : UInt32} (h : 0 < count) : (count - 1).toNat = count.toNat - 1 := by
  have hle : (1 : UInt32) ≤ count := UInt32.le_iff_toNat_le.mpr (UInt32.lt_iff_toNat_lt.mp h)
  rw [UInt32.toNat_sub_of_le _ _ hle]
  rfl

/-- A refund at zero does nothing; any other lowers the count and pushes the entry at it. -/
theorem refundAllocation_cases (pl : EmitPlanner) (idx : Nat) :
    (pl.refundAllocation idx = pl ∧ pl.allocationCount idx = 0)
    ∨ ∃ count : UInt32, pl.allocation[idx]? = some count ∧ 0 < count
      ∧ pl.refundAllocation idx = { pl with
          allocation :=
            if count - 1 = 0 then pl.allocation.erase idx else pl.allocation.insert idx (count - 1)
          heap := pl.heap.push ⟨count - 1, fibPriority pl.seed idx, idx⟩ } := by
  unfold refundAllocation
  split
  case h_1 count hget =>
    split
    case isTrue hpos => exact .inr ⟨count, hget, hpos, rfl⟩
    case isFalse hzero =>
      refine .inl ⟨rfl, ?_⟩
      have hle := mt UInt32.lt_iff_toNat_lt.mpr hzero
      rw [allocationCount_of_get hget]
      exact Nat.le_zero.mp (Nat.not_lt.mp hle)
  case h_2 hget =>
    refine .inl ⟨rfl, ?_⟩
    rw [allocationCount, ExtTreeMap.getD_eq_getD_getElem?, hget]
    rfl

/-- A refund takes one allocation back and is invisible elsewhere. -/
theorem refundAllocation_spec (pl : EmitPlanner) (idx : Nat) :
    (∀ i, (pl.refundAllocation idx).allocationCount i
        = if i = idx then pl.allocationCount i - 1 else pl.allocationCount i)
      ∧ (pl.refundAllocation idx).sentCount = pl.sentCount
      ∧ (pl.refundAllocation idx).peers = pl.peers := by
  rcases pl.refundAllocation_cases idx with ⟨heq, hzero⟩ | ⟨count, hget, hpos, heq⟩
  · rw [heq]
    refine ⟨fun i => ?_, rfl, rfl⟩
    split
    case isTrue hi => rw [hi, hzero]
    case isFalse => rfl
  · have hcount := allocationCount_of_get hget
    have hpred := toNat_pred hpos
    rw [heq]
    refine ⟨fun i => ?_, rfl, rfl⟩
    simp only [allocationCount, ExtTreeMap.getD_eq_getD_getElem?] at hcount ⊢
    by_cases hi : i = idx
    · subst hi
      rw [if_pos rfl, hcount, ← hpred]
      split
      case isTrue hlast => rw [BTreeMap.get_erase, if_pos rfl, hlast]; rfl
      case isFalse => rw [BTreeMap.get_insert, if_pos rfl]; rfl
    · rw [if_neg hi]
      split
      case isTrue => rw [BTreeMap.get_erase, if_neg (Ne.symm hi)]
      case isFalse => rw [BTreeMap.get_insert, if_neg (Ne.symm hi)]

theorem refundAllocation_mode (pl : EmitPlanner) (idx : Nat) :
    (pl.refundAllocation idx).mode = pl.mode := by
  rcases pl.refundAllocation_cases idx with ⟨heq, -⟩ | ⟨count, -, -, heq⟩ <;> rw [heq]

theorem refundAllocation_numShards (pl : EmitPlanner) (idx : Nat) :
    (pl.refundAllocation idx).numShards = pl.numShards := by
  rcases pl.refundAllocation_cases idx with ⟨heq, -⟩ | ⟨count, -, -, heq⟩ <;> rw [heq]

/-- Refunding distinct shards takes one allocation of each back. -/
theorem refundAll_spec (l : List Nat) (hl : l.Nodup) (pl : EmitPlanner) :
    (∀ i, (l.foldl refundAllocation pl).allocationCount i
        = if i ∈ l then pl.allocationCount i - 1 else pl.allocationCount i)
      ∧ (l.foldl refundAllocation pl).sentCount = pl.sentCount
      ∧ (l.foldl refundAllocation pl).peers = pl.peers := by
  induction l generalizing pl with
  | nil => exact ⟨by simp, rfl, rfl⟩
  | cons a l ih =>
    obtain ⟨ha, hl⟩ := List.nodup_cons.mp hl
    obtain ⟨halloc, hsent, hpeers⟩ := pl.refundAllocation_spec a
    obtain ⟨halloc', hsent', hpeers'⟩ := ih hl (pl.refundAllocation a)
    refine ⟨fun i => ?_, hsent'.trans hsent, hpeers'.trans hpeers⟩
    rw [List.foldl_cons, halloc', halloc]
    by_cases hi : i = a
    · subst hi
      simp [ha]
    · simp [hi]

/-- Removing a peer forgets its state and refunds what was in flight to it. -/
theorem removePeer_spec (pl : EmitPlanner) (p : PeerId) :
    (∀ i, (pl.removePeer p).allocationCount i
        = if i ∈ pl.inFlightTo p then pl.allocationCount i - 1 else pl.allocationCount i)
      ∧ (pl.removePeer p).sentCount = pl.sentCount
      ∧ ∀ q, (pl.removePeer p).peerState q = if p = q then default else pl.peerState q := by
  unfold removePeer
  -- a peer that is not known has nothing in flight
  cases hstate : pl.peers[p]? with
  | none =>
    have hdefault : pl.peerState p = default := by
      rw [peerState, ExtTreeMap.getD_eq_getD_getElem?, hstate]
      rfl
    dsimp only
    refine ⟨fun i => ?_, rfl, fun q => ?_⟩
    · rw [if_neg]
      rw [inFlightTo, hdefault]
      exact ExtTreeSet.not_mem_empty
    · split
      case isTrue h => rw [← h, hdefault]
      case isFalse => rfl
  | some state =>
    have hflight : pl.inFlightTo p = state.inFlight := by
      rw [inFlightTo, peerState, ExtTreeMap.getD_eq_getD_getElem?, hstate]
      rfl
    obtain ⟨halloc, hsent, hpeers⟩ := refundAll_spec state.inFlight.toList
      state.inFlight.nodup_toList { pl with peers := pl.peers.erase p }
    refine ⟨fun i => ?_, hsent, fun q => ?_⟩
    · rw [halloc, hflight]
      simp only [ExtTreeSet.mem_toList]
      rfl
    · rw [peerState, hpeers, ExtTreeMap.getD_eq_getD_getElem?, BTreeMap.get_erase]
      split
      · rfl
      · exact ExtTreeMap.getD_eq_getD_getElem?.symm

/-- A refund pushes the entry of the lower count. -/
theorem HeapSound.refundAllocation {pl : EmitPlanner} (h : pl.HeapSound) (idx : Nat) :
    (pl.refundAllocation idx).HeapSound := by
  have hcount := (pl.refundAllocation_spec idx).1
  have hallocated : ∀ i, (pl.refundAllocation idx).allocationCount i ≠ 0 → i < pl.numShards := by
    intro i hi
    refine h.allocated i fun hzero => hi ?_
    rw [hcount, hzero]
    split <;> rfl
  -- nothing to refund, or one entry more for the shard, at the count it has now
  rcases pl.refundAllocation_cases idx with ⟨heq, -⟩ | ⟨count, hget, hpos, heq⟩
  · rw [heq]
    exact h
  · have hold := allocationCount_of_get hget
    have hmem : ∀ entry, entry ∈ (pl.refundAllocation idx).heap
        ↔ entry = ⟨count - 1, fibPriority pl.seed idx, idx⟩ ∨ entry ∈ pl.heap := by
      intro entry
      rw [heq]
      exact MinHeap.mem_push _ _ _
    refine ⟨fun entry hentry => ?_, fun i hi => ?_, fun i hi => ?_⟩
    · rw [pl.refundAllocation_numShards]
      rcases (hmem entry).mp hentry with rfl | hentry
      · exact h.allocated idx (hold ▸ (UInt32.lt_iff_toNat_lt.mp hpos).ne')
      · exact h.within entry hentry
    · rw [pl.refundAllocation_numShards]
      exact hallocated i hi
    · rw [pl.refundAllocation_numShards] at hi
      by_cases hidx : i = idx
      · subst hidx
        refine ⟨_, (hmem _).mpr (.inl rfl), rfl, ?_⟩
        rw [hcount, if_pos rfl, hold]
        exact toNat_pred hpos
      · obtain ⟨entry, hentry, hi', ha⟩ := h.covers i hi
        refine ⟨entry, (hmem entry).mpr (.inr hentry), hi', ?_⟩
        rw [hcount, if_neg hidx, ha]

/-- Refunds in a row keep the heap sound. -/
theorem HeapSound.refundAll {pl : EmitPlanner} (h : pl.HeapSound) (l : List Nat) :
    (l.foldl EmitPlanner.refundAllocation pl).HeapSound := by
  induction l generalizing pl with
  | nil => exact h
  | cons idx l ih => exact ih (h.refundAllocation idx)

/-- The removal of a peer, which refunds its flights, keeps the heap sound. -/
theorem HeapSound.removePeer {pl : EmitPlanner} (h : pl.HeapSound) (p : PeerId) :
    (pl.removePeer p).HeapSound := by
  unfold EmitPlanner.removePeer
  split
  · exact h
  · exact (h.congr rfl rfl rfl : HeapSound { pl with peers := pl.peers.erase p }).refundAll _

/-! ## Reading a planner after an operation -/

/-- The list of a peer's flights, as the source makes it. -/
theorem mem_peerInFlight (pl : EmitPlanner) (p : PeerId) (idx : Nat) :
    idx ∈ pl.peerInFlight p ↔ idx ∈ pl.inFlightTo p := by
  rw [peerInFlight, inFlightTo, peerState, ExtTreeMap.getD_eq_getD_getElem?]
  cases pl.peers[p]? with
  | none => exact ⟨fun h => absurd h List.not_mem_nil, fun h => absurd h ExtTreeSet.not_mem_empty⟩
  | some state => exact ExtTreeSet.mem_toList

theorem peerHavelist_eq (pl : EmitPlanner) (p : PeerId) :
    pl.peerHavelist p = (pl.peerState p).optimisticHavelist := by
  rw [peerHavelist, peerState, ExtTreeMap.getD_eq_getD_getElem?]
  cases pl.peers[p]? <;> rfl

theorem peerState_setPeerHavelist (pl : EmitPlanner) (p q : PeerId) (b : BitMap) :
    (pl.setPeerHavelist p b).peerState q
      = if p = q then { pl.peerState p with optimisticHavelist := some b } else pl.peerState q :=
  peerState_modifyPeer pl p q _

/-- Refunds touch neither the mode nor the shard count. -/
theorem refundAll_fixed (l : List Nat) (pl : EmitPlanner) :
    (l.foldl refundAllocation pl).mode = pl.mode
      ∧ (l.foldl refundAllocation pl).numShards = pl.numShards := by
  induction l generalizing pl with
  | nil => exact ⟨rfl, rfl⟩
  | cons idx l ih =>
    obtain ⟨hmode, hnum⟩ := ih (pl.refundAllocation idx)
    exact ⟨hmode.trans (pl.refundAllocation_mode idx), hnum.trans (pl.refundAllocation_numShards idx)⟩

theorem removePeer_mode (pl : EmitPlanner) (p : PeerId) : (pl.removePeer p).mode = pl.mode := by
  unfold removePeer
  split
  · rfl
  · exact (refundAll_fixed _ _).1

theorem removePeer_numShards (pl : EmitPlanner) (p : PeerId) :
    (pl.removePeer p).numShards = pl.numShards := by
  unfold removePeer
  split
  · rfl
  · exact (refundAll_fixed _ _).2

theorem peerState_cancelInFlight (pl : EmitPlanner) (p q : PeerId) (idx : Nat) :
    (pl.cancelInFlight p idx).peerState q
      = if p = q then { pl.peerState p with inFlight := (pl.inFlightTo p).erase idx }
        else pl.peerState q :=
  peerState_modifyPeer pl p q _

theorem peerState_refundAllocation (pl : EmitPlanner) (q : PeerId) (idx : Nat) :
    (pl.refundAllocation idx).peerState q = pl.peerState q := by
  rw [peerState, peerState, (pl.refundAllocation_spec idx).2.2]

/-- A sent shard is out of flight and in the peer's optimistic havelist. -/
theorem peerState_recordSent (pl : EmitPlanner) (p q : PeerId) (idx : Nat) :
    (pl.recordSent p idx).peerState q = if p = q then
      { inFlight := (pl.inFlightTo p).erase idx
        optimisticHavelist := some (((pl.peerState p).optimisticHavelist.getD
          (BitMap.withCapacity pl.numShards)).setIgnore idx) } else pl.peerState q := by
  refine Eq.trans ?_ (peerState_modifyPeer pl p q fun s =>
    { inFlight := s.inFlight.erase idx
      optimisticHavelist :=
        some ((s.optimisticHavelist.getD (BitMap.withCapacity pl.numShards)).setIgnore idx) })
  rfl

/-- The flights after an allocation. -/
theorem Allocated.inFlightTo_eq {pl pl' : EmitPlanner} {p : PeerId} {idx : Nat}
    (h : Allocated p idx pl pl') (q : PeerId) :
    pl'.inFlightTo q = if p = q then (pl.inFlightTo p).insert idx else pl.inFlightTo q := by
  rw [inFlightTo, h.peerState_eq]
  split <;> rfl

theorem SameCounts.inFlightTo_eq {pl pl' : EmitPlanner} (h : SameCounts pl pl') (q : PeerId) :
    pl'.inFlightTo q = pl.inFlightTo q :=
  congrArg PeerState.inFlight (h.peerState_eq q)

/-- A shard that was free, allocated and cancelled again: the flights are what they were. -/
theorem Allocated.mem_cancel {pl pl' : EmitPlanner} {p q : PeerId} {idx i : Nat}
    (h : Allocated p idx pl pl') (hfree : idx ∉ pl.inFlightTo p) :
    i ∈ (pl'.cancelInFlight p idx).inFlightTo q ↔ i ∈ pl.inFlightTo q := by
  rw [inFlightTo_cancelInFlight]
  split
  case isTrue hq =>
    subst hq
    rw [h.inFlightTo_eq, if_pos rfl, BTreeSet.mem_erase_iff, BTreeSet.mem_insert_iff]
    constructor
    · rintro ⟨hne, rfl | hi⟩
      · exact absurd rfl hne
      · exact hi
    · intro hi
      refine ⟨?_, .inr hi⟩
      rintro rfl
      exact hfree hi
  case isFalse hq => rw [h.inFlightTo_eq, if_neg hq]

end EmitPlanner

end Ethp2p
