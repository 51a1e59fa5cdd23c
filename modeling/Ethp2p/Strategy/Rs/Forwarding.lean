/-
# Ethp2p.Strategy.Rs.Forwarding — a relay forwards a shard no more often than its cap.

The forwarding multiplier caps `allocation_count`, and the planner skips a shard at the cap.  That bounds
what is SENT only because every send and every flight of a shard is covered by an allocation of its own:
refunds give an allocation back where a flight ends without a send, and nowhere else (`Capped`).

An allocation that is cancelled for want of the chunk is never refunded, so the first bound need not be
an equation; `Budget` says when it is.  No bound on the number of dispatches is needed: a handle that is
issued twice loses a callback, which leaves its allocation spent.

The counts are 32-bit numbers.  The cap is one too, so a relay's never wrap; an origin's polls must leave
them room (`CountsFit`).
-/
import Ethp2p.Strategy.Rs.OneShard
import Ethp2p.Strategy.Rs.Turns

namespace Ethp2p

open Std

/-! ## Counting the peers a shard is in flight to -/

namespace EmitPlanner

variable {pl pl' : EmitPlanner} {p : PeerId} {idx : Nat}

/-- The number of peers to which a shard is in flight. -/
def flyingCount (pl : EmitPlanner) (idx : Nat) : Nat :=
  (pl.peers.filter fun _ state => idx ∈ state.inFlight).size

/-- The peers to which a shard is in flight. -/
def flyingTo (pl : EmitPlanner) (idx : Nat) : Finset PeerId :=
  Finset.univ.filter fun p => idx ∈ pl.inFlightTo p

theorem mem_flyingTo : p ∈ pl.flyingTo idx ↔ idx ∈ pl.inFlightTo p := by
  simp [flyingTo]

/-- The peers a shard is in flight to, counted. -/
theorem flyingCount_eq (pl : EmitPlanner) (idx : Nat) : pl.flyingCount idx = (pl.flyingTo idx).card := by
  have hpeers : (Finset.univ.filter (· ∈ pl.peers.filter fun _ state => idx ∈ state.inFlight))
      = pl.flyingTo idx := by
    ext p
    rw [Finset.mem_filter, mem_flyingTo, BTreeMap.mem_filter_iff, inFlightTo, peerState,
      ExtTreeMap.getD_eq_getD_getElem?]
    cases pl.peers[p]? with
    | none => exact ⟨fun h => by simp at h, fun h => absurd h ExtTreeSet.not_mem_empty⟩
    | some state => simp
  rw [flyingCount, BTreeMap.size_eq_card, hpeers]

/-- The flights of the shard are the same. -/
theorem flyingCount_congr (h : ∀ q, idx ∈ pl'.inFlightTo q ↔ idx ∈ pl.inFlightTo q) :
    pl'.flyingCount idx = pl.flyingCount idx := by
  have hto : pl'.flyingTo idx = pl.flyingTo idx := by
    ext q
    rw [mem_flyingTo, mem_flyingTo, h]
  rw [flyingCount_eq, flyingCount_eq, hto]

/-- The shard takes off to one more peer. -/
theorem flyingCount_of_insert (hfree : idx ∉ pl.inFlightTo p)
    (h : ∀ q, idx ∈ pl'.inFlightTo q ↔ p = q ∨ idx ∈ pl.inFlightTo q) :
    pl'.flyingCount idx = pl.flyingCount idx + 1 := by
  have hto : pl'.flyingTo idx = insert p (pl.flyingTo idx) := by
    ext q
    rw [mem_flyingTo, Finset.mem_insert, mem_flyingTo, h, eq_comm]
  rw [flyingCount_eq, flyingCount_eq, hto, Finset.card_insert_of_notMem (mem_flyingTo.not.mpr hfree)]

/-- The shard lands at one peer. -/
theorem flyingCount_of_erase (hfly : idx ∈ pl.inFlightTo p)
    (h : ∀ q, idx ∈ pl'.inFlightTo q ↔ p ≠ q ∧ idx ∈ pl.inFlightTo q) :
    pl'.flyingCount idx + 1 = pl.flyingCount idx := by
  have hto : pl'.flyingTo idx = (pl.flyingTo idx).erase p := by
    ext q
    rw [mem_flyingTo, Finset.mem_erase, mem_flyingTo, h, ne_comm]
  rw [flyingCount_eq, flyingCount_eq, hto, Finset.card_erase_add_one (mem_flyingTo.mpr hfly)]

/-- A shard takes off to `p`; the flights of the others are unchanged. -/
theorem Allocated.flyingCount_eq (h : Allocated p idx pl pl') (hfree : idx ∉ pl.inFlightTo p) (i : Nat) :
    pl'.flyingCount i = pl.flyingCount i + if i = idx then 1 else 0 := by
  split
  case isTrue hi =>
    subst hi
    refine flyingCount_of_insert hfree fun q => ?_
    rw [h.inFlightTo_eq]
    split
    case isTrue hq => simp [hq]
    case isFalse hq => exact (or_iff_right hq).symm
  case isFalse hi =>
    refine flyingCount_congr fun q => ?_
    rw [h.inFlightTo_eq]
    split
    case isTrue hq =>
      rw [BTreeSet.mem_insert_iff, ← hq]
      exact or_iff_right (Ne.symm hi)
    case isFalse => rfl

/-- A shard lands at `p`; the flights of the others are unchanged. -/
theorem flyingCount_landed (hfly : idx ∈ pl.inFlightTo p)
    (h : ∀ q, pl'.inFlightTo q = if p = q then (pl.inFlightTo p).erase idx else pl.inFlightTo q) (i : Nat) :
    pl'.flyingCount i + (if i = idx then 1 else 0) = pl.flyingCount i := by
  split
  case isTrue hi =>
    subst hi
    refine flyingCount_of_erase hfly fun q => ?_
    rw [h]
    split
    case isTrue hq => simp [hq]
    case isFalse hq => exact (and_iff_right hq).symm
  case isFalse hi =>
    refine flyingCount_congr fun q => ?_
    rw [h]
    split
    case isTrue hq =>
      rw [BTreeSet.mem_erase_iff, ← hq]
      exact and_iff_right (Ne.symm hi)
    case isFalse => rfl

/-- A peer leaves: each shard in flight to it has one flight less. -/
theorem flyingCount_removePeer (pl : EmitPlanner) (p : PeerId) (i : Nat) :
    (pl.removePeer p).flyingCount i + (if i ∈ pl.inFlightTo p then 1 else 0) = pl.flyingCount i := by
  have hto : ∀ q, i ∈ (pl.removePeer p).inFlightTo q ↔ p ≠ q ∧ i ∈ pl.inFlightTo q := by
    intro q
    rw [inFlightTo, (pl.removePeer_spec p).2.2]
    split
    case isTrue hq => exact ⟨fun h => absurd h ExtTreeSet.not_mem_empty, fun h => absurd hq h.1⟩
    case isFalse hq => exact ⟨fun h => ⟨hq, h⟩, And.right⟩
  split
  case isTrue hfly => exact flyingCount_of_erase hfly hto
  case isFalse hfly =>
    refine flyingCount_congr fun q => ?_
    rw [hto]
    refine ⟨And.right, fun h => ⟨?_, h⟩⟩
    rintro rfl
    exact hfly h

end EmitPlanner

/-! ## What is sent and in flight is allocated -/

namespace RsStrategy

variable {s s' : RsStrategy} {p : PeerId} {idx : Nat} {cap : UInt32} {turn : PeerId → Option Nat}

/-- Every send and every flight of a shard has an allocation of its own. -/
structure Covered (s : RsStrategy) : Prop extends s.Planned where
  covered : ∀ i, s.planner.sentCountOf i + s.planner.flyingCount i ≤ s.planner.allocationCount i

/-- Every send and every flight of a shard has an allocation of its own, and there are at most `cap`
allocations of it. -/
structure Capped (cap : UInt32) (s : RsStrategy) : Prop extends s.Planned where
  mode : s.planner.mode = .relay cap
  covered : ∀ i, s.planner.sentCountOf i + s.planner.flyingCount i ≤ s.planner.allocationCount i
  within : ∀ i, s.planner.allocationCount i ≤ cap.toNat

theorem Capped.toCovered (h : s.Capped cap) : s.Covered := ⟨h.toPlanned, h.covered⟩

/-- Within the cap, what covers the flights is capped. -/
theorem Covered.capped (h : s.Covered) (hmode : s.planner.mode = .relay cap)
    (hwithin : ∀ i, s.planner.allocationCount i ≤ cap.toNat) : s.Capped cap :=
  ⟨h.toPlanned, hmode, h.covered, hwithin⟩

/-- A new strategy has nothing to cover. -/
theorem Fresh.covered (h : s.Fresh) : s.Covered := by
  refine { h.planned with covered := fun i => ?_ }
  obtain ⟨config, preamble, chunks, n, seed, mode, rfl⟩ := h
  show 0 + (ExtTreeMap.filter _ ∅).size ≤ 0
  exact Nat.le_refl 0

theorem Fresh.capped (h : s.Fresh) (hmode : s.planner.mode = .relay cap) : s.Capped cap := by
  refine h.covered.capped hmode fun i => ?_
  obtain ⟨config, preamble, chunks, n, seed, mode, rfl⟩ := h
  exact Nat.zero_le cap.toNat

/-- An operation that moves the counts together. -/
theorem Covered.of_counts (h : s.Covered) (hplanned : s'.Planned)
    (hcovered : ∀ i, s'.planner.sentCountOf i + s'.planner.flyingCount i + s.planner.allocationCount i
      ≤ s.planner.sentCountOf i + s.planner.flyingCount i + s'.planner.allocationCount i) :
    s'.Covered where
  toPlanned := hplanned
  covered i := by
    have hold := h.covered i
    have hnew := hcovered i
    omega

/-- The counts of the shards that the turns of a poll fall on have room for one more. -/
def CountsFit (s : RsStrategy) : Prop :=
  ∃ turn, s.Turns turn
    ∧ ∀ p ∈ s.attachedPeers.toList, ∀ idx ∈ turn p, s.countAtTurn turn p idx + 1 < 2 ^ 32

/-- Every count has room for one more allocation to every peer. -/
def Roomy (s : RsStrategy) : Prop :=
  s.attachedPeers.toList.length < 2 ^ 32
    ∧ ∀ entry ∈ s.planner.allocation.toList, entry.2.toNat + s.attachedPeers.toList.length < 2 ^ 32

instance (s : RsStrategy) : Decidable s.Roomy :=
  inferInstanceAs (Decidable (s.attachedPeers.toList.length < 2 ^ 32
    ∧ ∀ entry ∈ s.planner.allocation.toList, entry.2.toNat + s.attachedPeers.toList.length < 2 ^ 32))

/-- With room below `2 ^ 32` for every attached peer, no count wraps in a poll. -/
theorem Roomy.countsFit (h : s.Roomy) : s.CountsFit := by
  have hroom : ∀ i, s.planner.allocationCount i + s.attachedPeers.toList.length < 2 ^ 32 := fun i => by
    rw [EmitPlanner.allocationCount, ExtTreeMap.getD_eq_getD_getElem?]
    cases hi : s.planner.allocation[i]? with
    | none => simpa using h.1
    | some count => exact h.2 (i, count) (ExtTreeMap.mem_toList_iff_getElem?_eq_some.mpr hi)
  obtain ⟨turn, hturns⟩ := s.exists_turns
  refine ⟨turn, hturns, fun p hp idx _ => ?_⟩
  -- `p` itself is not among the earlier peers
  have hfewer : (s.attachedPeers.toList.countP fun q => q < p ∧ turn q = some idx)
      < s.attachedPeers.toList.length := by
    rw [List.countP_lt_length_iff]
    exact ⟨p, hp, by simp⟩
  have hidx := hroom idx
  rw [countAtTurn, EmitPlanner.countAtTurn, Nat.mod_eq_of_lt (by omega)]
  omega

/-- **One pick** keeps the flights covered: it adds one flight and one to the count, which does not wrap. -/
theorem PollStep.covered (hstep : PollStep p s s') (h : s.Covered)
    (hfits : ∀ idx ∈ (s.planner.allocate p).1, s.planner.allocationCount idx + 1 < 2 ^ 32) :
    s'.Covered := by
  have hplanned := hstep.planned h.toPlanned
  cases hstep with
  | @idle planner hal hsame =>
    refine h.of_counts hplanned fun i => ?_
    have halloc : planner.allocationCount i = s.planner.allocationCount i := by
      rw [EmitPlanner.allocationCount, EmitPlanner.allocationCount, hsame.allocation_eq]
    have hfly : planner.flyingCount i = s.planner.flyingCount i :=
      EmitPlanner.flyingCount_congr fun q => by rw [hsame.inFlightTo_eq]
    have hsent : planner.sentCountOf i = s.planner.sentCountOf i := by
      rw [EmitPlanner.sentCountOf, EmitPlanner.sentCountOf, hsame.sentCount_eq]
    simp only [halloc, hfly, hsent, Nat.le_refl]
  -- the allocation of a shard that is not held stays counted, which leaves room
  | @cancelled entry planner hal hentry helig hall hchunk =>
    refine h.of_counts hplanned fun i => ?_
    have hfly : (planner.cancelInFlight p entry.idx).flyingCount i = s.planner.flyingCount i :=
      EmitPlanner.flyingCount_congr fun q => hall.mem_cancel helig.not_flying
    have hsent : (planner.cancelInFlight p entry.idx).sentCountOf i = s.planner.sentCountOf i :=
      congrArg (fun m => (m.getD i 0).toNat) hall.sentCount_eq
    have halloc : (planner.cancelInFlight p entry.idx).allocationCount i = _ :=
      hall.allocationCount_eq i
    have hroom := hfits entry.idx (by rw [hal]; rfl)
    simp only [hfly, hsent, halloc]
    split
    case isTrue hi =>
      rw [hi, Nat.mod_eq_of_lt hroom]
      omega
    case isFalse => omega
  -- one allocation more for one flight more
  | @dispatched entry planner payload hal hentry helig hall hchunk =>
    refine h.of_counts hplanned fun i => ?_
    have hfly : (s.dispatched planner p entry.idx).planner.flyingCount i = _ :=
      hall.flyingCount_eq helig.not_flying i
    have hsent : (s.dispatched planner p entry.idx).planner.sentCountOf i = s.planner.sentCountOf i :=
      congrArg (fun m => (m.getD i 0).toNat) hall.sentCount_eq
    have halloc : (s.dispatched planner p entry.idx).planner.allocationCount i = _ :=
      hall.allocationCount_eq i
    have hroom := hfits entry.idx (by rw [hal]; rfl)
    simp only [hfly, hsent, halloc]
    split
    case isTrue hi =>
      rw [hi, Nat.mod_eq_of_lt hroom]
      omega
    case isFalse => omega

/-- **A poll whose counts fit** leaves every send and every flight covered. -/
theorem Covered.pollChunks (h : s.Covered) (hranked : s.planner.HeapRanked) (hfits : s.CountsFit) :
    s.pollChunks.2.Covered := by
  obtain ⟨turn, hturns, hfits⟩ := hfits
  refine pollPeers_turns (P := fun _ _ s₁ => s₁.Covered) hranked s.attachedPeers_sorted hturns ?_ h
  intro before p _ s₁ hpre hsofar hfalls hcovered
  refine (pollPeers_one p s₁).1.covered hcovered fun idx hidx => ?_
  rw [hfalls] at hidx
  rw [hsofar.count_at_turn hpre]
  exact hfits p (hpre.subset (List.mem_append_right _ (List.mem_singleton_self p))) idx hidx

/-- A callback turns a flight into a send, or gives its allocation back. -/
theorem Covered.chunkSent (h : s.Covered) (p : PeerId) (k : DispatchHandle) (ok : Bool)
    (hown : ∀ v ∈ s.inFlight[k]?, v.1 = p) : (s.chunkSent p k ok).Covered := by
  have hplanned := h.toPlanned.chunkSent p k ok hown
  cases hk : s.inFlight[k]? with
  | none => rwa [chunkSent_of_not_flying hk]
  | some v =>
    obtain ⟨q, idx⟩ := v
    obtain rfl : q = p := hown (q, idx) hk
    have hfly := EmitPlanner.flyingCount_landed (h.planned k q idx hk)
      fun q' => inFlightTo_chunkSent hk q q' ok
    refine h.of_counts hplanned fun i => ?_
    have hflights := hfly i
    rw [chunkSent_of_flying hk] at hflights ⊢
    cases ok with
    | true =>
      obtain ⟨halloc, hsent, -⟩ := s.planner.recordSent_spec q idx
      have hsame : (s.planner.recordSent q idx).allocationCount i = s.planner.allocationCount i :=
        congrArg (fun m => (m.getD i 0).toNat) halloc
      rw [if_pos rfl] at hflights ⊢
      rw [hsent, hsame]
      -- the flight is covered beside what was sent, so that counts on without a wrap
      have hcovered := h.covered i
      have hlast := s.planner.allocationCount_lt i
      by_cases hi : i = idx
      · subst hi
        simp only [if_true] at hflights ⊢
        omega
      · simp only [if_neg hi] at hflights ⊢
        omega
    | false =>
      obtain ⟨halloc, hsent, -⟩ := (s.planner.cancelInFlight q idx).refundAllocation_spec idx
      have hsent' : ((s.planner.cancelInFlight q idx).refundAllocation idx).sentCountOf i
          = s.planner.sentCountOf i := congrArg (fun m => (m.getD i 0).toNat) hsent
      have hsame : (s.planner.cancelInFlight q idx).allocationCount i = s.planner.allocationCount i := rfl
      rw [if_neg Bool.false_ne_true] at hflights ⊢
      rw [halloc, hsent', hsame]
      -- the flight is covered, so there is an allocation to give back
      have hcovered := h.covered i
      by_cases hi : i = idx
      · simp only [if_pos hi] at hflights ⊢
        omega
      · simp only [if_neg hi] at hflights ⊢
        omega

/-- A peer leaves, and takes the allocations of its flights with it. -/
theorem Covered.detachPeer (h : s.Covered) (p : PeerId) (completed : Bool) :
    (s.detachPeer p completed).Covered := by
  obtain ⟨halloc, hsent, -⟩ := s.planner.removePeer_spec p
  refine h.of_counts (h.toPlanned.detachPeer p completed) fun i => ?_
  show (s.planner.removePeer p).sentCountOf i + (s.planner.removePeer p).flyingCount i + _
    ≤ _ + (s.planner.removePeer p).allocationCount i
  have hfly := s.planner.flyingCount_removePeer p i
  have hsent' : (s.planner.removePeer p).sentCountOf i = s.planner.sentCountOf i :=
    congrArg (fun m => (m.getD i 0).toNat) hsent
  have hcovered := h.covered i
  rw [halloc, hsent']
  by_cases hi : i ∈ s.planner.inFlightTo p
  · simp only [if_pos hi] at hfly ⊢
    omega
  · simp only [if_neg hi] at hfly ⊢
    omega

/-- **What is in flight stays covered** under every operation whose callback names its own peer, if polls
keep it so. -/
theorem Covered.applyOp [Crates] (h : s.Covered) (op : StrategyOp) (hown : s.OwnPeer op)
    (hpoll : op = .pollChunks → s.pollChunks.2.Covered) : (s.applyOp op).Covered := by
  have hplanned := h.toPlanned.applyOp op hown
  cases op with
  | take idx data =>
    obtain ⟨chunks, hchunks⟩ := s.takeChunk_eq idx data
    rw [RsStrategy.applyOp, hchunks] at hplanned ⊢
    exact ⟨hplanned, h.covered⟩
  | attach peer => exact ⟨hplanned, h.covered⟩
  | detach peer completed => exact h.detachPeer peer completed
  | routing peer update =>
    refine h.of_counts hplanned fun i => ?_
    have hfly : (s.routingUpdate peer update).2.planner.flyingCount i = s.planner.flyingCount i :=
      EmitPlanner.flyingCount_congr fun q => by
        rw [show (s.routingUpdate peer update).2.planner.inFlightTo q = s.planner.inFlightTo q from
          s.planner.inFlightTo_setPeerHavelist peer q _]
    exact Nat.le_of_eq (congrArg (s.planner.sentCountOf i + · + s.planner.allocationCount i) hfly)
  | pollChunks => exact hpoll rfl
  | pollRouting force =>
    rw [RsStrategy.applyOp] at hplanned ⊢
    rcases s.pollRouting_cases force with hr | hr <;> rw [hr] at hplanned ⊢
    · exact h
    · exact ⟨hplanned, h.covered⟩
  | sent peer handle ok => exact h.chunkSent peer handle ok hown

/-! ## The cap -/

/-- An allocation falls on a shard below the cap. -/
theorem Capped.below (h : s.Capped cap) {entry : EmitEntry} (helig : s.planner.Eligible p entry) :
    s.planner.allocationCount entry.idx < cap.toNat := by
  have hbelow : entry.allocation.toNat < cap.toNat :=
    helig.below_cap cap.toNat (by simp [EmitPlanner.cap, h.mode])
  rwa [helig.live] at hbelow

/-- The cap is a 32-bit number, so the counts below it have room. -/
theorem Capped.fits (h : s.Capped cap) :
    ∀ idx ∈ (s.planner.allocate p).1, s.planner.allocationCount idx + 1 < 2 ^ 32 := by
  intro idx hidx
  rcases s.planner.allocate_cases p with ⟨planner, hal, -, -⟩ | ⟨entry, planner, hal, -, helig, -⟩
  · rw [hal] at hidx
    cases hidx
  · rw [hal] at hidx
    obtain rfl : entry.idx = idx := Option.some.inj hidx
    have hbelow := h.below helig
    have hcap := cap.toNat_lt
    omega

/-- An allocation of a shard below the cap. -/
theorem Capped.allocationCount_le (h : s.Capped cap) {entry : EmitEntry} {planner : EmitPlanner}
    (helig : s.planner.Eligible p entry) (hall : EmitPlanner.Allocated p entry.idx s.planner planner)
    (i : Nat) : planner.allocationCount i ≤ cap.toNat := by
  rw [hall.allocationCount_eq]
  split
  case isTrue hi =>
    have hbelow := h.below helig
    rw [hi]
    exact (Nat.mod_le _ _).trans hbelow
  case isFalse => exact h.within i

/-- In relay mode a pick below the cap stays within it. -/
theorem PollStep.capped (hstep : PollStep p s s') (h : s.Capped cap) : s'.Capped cap := by
  have hcovered := hstep.covered h.toCovered h.fits
  cases hstep with
  | @idle planner hal hsame =>
    refine hcovered.capped (hsame.mode_eq.trans h.mode) fun i => ?_
    have halloc : planner.allocationCount i = s.planner.allocationCount i := by
      rw [EmitPlanner.allocationCount, EmitPlanner.allocationCount, hsame.allocation_eq]
    exact halloc.trans_le (h.within i)
  | cancelled hal hentry helig hall hchunk | dispatched hal hentry helig hall hchunk =>
    have hwithin := h.allocationCount_le helig hall
    exact hcovered.capped (hall.mode_eq.trans h.mode) hwithin

/-- A result moves one flight to the sent, or refunds it. -/
theorem Capped.chunkSent (h : s.Capped cap) (p : PeerId) (k : DispatchHandle) (ok : Bool)
    (hown : ∀ v ∈ s.inFlight[k]?, v.1 = p) : (s.chunkSent p k ok).Capped cap := by
  have hcovered := h.toCovered.chunkSent p k ok hown
  cases hk : s.inFlight[k]? with
  | none => rwa [chunkSent_of_not_flying hk]
  | some v =>
    cases ok with
    | true =>
      refine hcovered.capped ?_ ?_ <;> rw [chunkSent_of_flying hk]
      · exact h.mode
      · exact h.within
    | false =>
      refine hcovered.capped ?_ fun i => ?_ <;> rw [chunkSent_of_flying hk]
      · exact (EmitPlanner.refundAllocation_mode _ v.2).trans h.mode
      · have hsame : (s.planner.cancelInFlight p v.2).allocationCount i = s.planner.allocationCount i := rfl
        have hold := h.within i
        rw [if_neg Bool.false_ne_true, ((s.planner.cancelInFlight p v.2).refundAllocation_spec v.2).1, hsame]
        split <;> omega

/-- A detach takes the flights to the peer out, and refunds each of them. -/
theorem Capped.detachPeer (h : s.Capped cap) (p : PeerId) (completed : Bool) :
    (s.detachPeer p completed).Capped cap := by
  refine (h.toCovered.detachPeer p completed).capped ((s.planner.removePeer_mode p).trans h.mode) fun i => ?_
  show (s.planner.removePeer p).allocationCount i ≤ cap.toNat
  have hold := h.within i
  rw [(s.planner.removePeer_spec p).1]
  split <;> omega

/-! ## Runs -/

section Run

variable [Crates]

/-- **Every operation keeps the counts within the cap.** -/
theorem Capped.applyOp (h : s.Capped cap) (op : StrategyOp) (hown : s.OwnPeer op) :
    (s.applyOp op).Capped cap := by
  have hpoll : s.pollChunks.2.Capped cap := pollPeers_induct _ (fun _ _ _ _ hstep => hstep.capped) h
  have hcovered := h.toCovered.applyOp op hown fun _ => hpoll.toCovered
  cases op with
  | take idx data =>
    obtain ⟨chunks, hchunks⟩ := s.takeChunk_eq idx data
    rw [RsStrategy.applyOp, hchunks] at hcovered ⊢
    exact hcovered.capped h.mode h.within
  | attach peer => exact hcovered.capped h.mode h.within
  | detach peer completed => exact h.detachPeer peer completed
  | routing peer update => exact hcovered.capped h.mode h.within
  | pollChunks => exact hpoll
  | pollRouting force =>
    rw [RsStrategy.applyOp] at hcovered ⊢
    rcases s.pollRouting_cases force with hr | hr <;> rw [hr] at hcovered ⊢
    · exact h
    · exact hcovered.capped h.mode h.within
  | sent peer handle ok => exact h.chunkSent peer handle ok hown

omit [Crates] in
/-- A relay forwards as often as it is configured to. -/
theorem newRelayWithSeed_mode {preamble : Preamble} {config : RsConfig} {seed : UInt64}
    (h : newRelayWithSeed preamble config seed = .ok s) :
    s.planner.mode = .relay config.forwardMultiplier := by
  unfold newRelayWithSeed at h
  split at h
  · cases h
  · rw [← Except.ok.inj h]
    rfl

/-- **A relay forwards a shard at most `forward_multiplier` times**: whatever is done to it, what it has
sent of a shard and what it has in flight was allocated, and no more was allocated than the cap. -/
theorem runOps_capped {preamble : Preamble} {config : RsConfig} {seed : UInt64}
    (hs : newRelayWithSeed preamble config seed = .ok s) (ops : List StrategyOp)
    (hown : s.EachOp OwnPeer ops) (idx : Nat) :
    (s.runOps ops).planner.sentCountOf idx + (s.runOps ops).planner.flyingCount idx
      ≤ (s.runOps ops).planner.allocationCount idx
    ∧ (s.runOps ops).planner.allocationCount idx ≤ config.forwardMultiplier.toNat := by
  have hfresh := (newRelayWithSeed_fresh hs).capped (newRelayWithSeed_mode hs)
  have hcapped := hown.run (fun _ op hop h => h.applyOp op hop) hfresh
  exact ⟨hcapped.covered idx, hcapped.within idx⟩

end Run

section OneShard

attribute [local instance] oneShard

/-- A relay forwards both shards to one peer and one of them to another, which leaves. -/
def partingOps : List StrategyOp :=
  [.take 0 [1], .take 1 [1], .attach 1, .attach 2, .pollChunks, .sent 1 0 true, .detach 2 false,
    .sent 2 1 true, .pollChunks]

/-- A peer parts with a shard in flight. -/
theorem runOps_capped_parting :
    OneShard.relay.EachOp OwnPeer partingOps
    ∧ ((OneShard.relay.runOps partingOps).planner.sentCountOf 1
        + (OneShard.relay.runOps partingOps).planner.flyingCount 1
      ≤ (OneShard.relay.runOps partingOps).planner.allocationCount 1
      ∧ (OneShard.relay.runOps partingOps).planner.allocationCount 1 ≤ 4) := by
  have hown : OneShard.relay.EachOp OwnPeer partingOps := by decide +kernel
  exact ⟨hown, runOps_capped OneShard.newRelay_eq partingOps hown 1⟩

end OneShard

end RsStrategy

end Ethp2p
