/-
# Ethp2p.Strategy.Rs.Polling — polls use up the strategy's work.

A drain polls until a poll comes back empty, so it ends because every poll leaves less to poll.  What is
left to dispatch are the open pairs, of an attached peer and a shard that is not in flight to it: a poll
puts every pair it dispatches in flight, and opens none (`openPairs_poll_ssubset`).  What is left to route
is at most one update, which then stands until the store changes (`quiet_poll`).

Only the planner's heap has to be sound for this, and not its books: a callback may have named any peer.
-/
import Ethp2p.Strategy.Rs.Books
import Ethp2p.Strategy.Rs.Sending

namespace Ethp2p

open Std

namespace RsStrategy

variable {s s' : RsStrategy} {p q : PeerId} {i : Nat}

/-! ## Flights during a poll -/

/-- A pick lands no flight. -/
theorem PollStep.flying (h : PollStep p s s') (hi : i ∈ s.planner.inFlightTo q) :
    i ∈ s'.planner.inFlightTo q := by
  cases h with
  | idle hal hsame => rwa [hsame.inFlightTo_eq]
  | cancelled hal hentry helig hall hchunk => exact (hall.mem_cancel helig.not_flying).mpr hi
  | @dispatched entry planner payload hal hentry helig hall hchunk =>
    show i ∈ planner.inFlightTo q
    rw [hall.inFlightTo_eq]
    split
    case isTrue hq => exact (BTreeSet.mem_insert_iff _ _ _).mpr (.inr (hq ▸ hi))
    case isFalse => exact hi

/-- A poll ends no flight. -/
theorem pollPeers_flying (peers : List PeerId) (hi : i ∈ s.planner.inFlightTo q) :
    i ∈ (pollPeers peers s).2.planner.inFlightTo q :=
  pollPeers_induct (P := fun s => i ∈ s.planner.inFlightTo q) peers (fun _ _ _ _ hstep => hstep.flying) hi

/-- What a poll dispatches was not in flight. -/
theorem not_flying_of_mem_pollPeers {peers : List PeerId} {d : ChunkDispatch Nat}
    (hd : d ∈ (pollPeers peers s).1) : d.chunkId ∉ s.planner.inFlightTo d.peer := by
  refine pollPeers_forall (P := fun s₁ => ∀ q i, i ∈ s.planner.inFlightTo q → i ∈ s₁.planner.inFlightTo q)
    (R := fun d => d.chunkId ∉ s.planner.inFlightTo d.peer) peers
    (fun _ _ _ _ hstep hgrows q i hi => hstep.flying (hgrows q i hi)) ?_ (fun _ _ => id) d hd
  intro p _ s₁ entry payload hgrows _ helig _ hflying
  exact helig.not_flying (hgrows _ _ hflying)

/-- What a poll dispatches is in flight after it. -/
theorem flying_of_mem_pollPeers {peers : List PeerId} {d : ChunkDispatch Nat}
    (hd : d ∈ (pollPeers peers s).1) :
    d.chunkId ∈ (pollPeers peers s).2.planner.inFlightTo d.peer := by
  induction peers generalizing s with
  | nil => simp [pollPeers] at hd
  | cons p peers ih =>
    rcases s.planner.allocate_cases p with
      ⟨planner, hal, hsame, -⟩ | ⟨entry, planner, hal, hentry, helig, hall⟩
    · rw [pollPeers_idle hal] at hd ⊢
      exact ih hd
    · cases hchunk : s.chunkAt entry.idx with
      | none =>
        rw [pollPeers_cancel hal hchunk] at hd ⊢
        exact ih hd
      | some payload =>
        rw [pollPeers_dispatch hal hchunk] at hd ⊢
        rcases List.mem_cons.mp hd with rfl | hd
        · refine pollPeers_flying peers ?_
          show entry.idx ∈ planner.inFlightTo p
          rw [hall.inFlightTo_eq, if_pos rfl]
          exact (BTreeSet.mem_insert_iff _ _ _).mpr (.inl rfl)
        · exact ih hd

/-- What a poll dispatches is one of the planner's shards. -/
theorem chunkId_lt_of_mem_pollPeers (h : s.planner.HeapSound) {peers : List PeerId}
    {d : ChunkDispatch Nat} (hd : d ∈ (pollPeers peers s).1) : d.chunkId < s.planner.numShards := by
  refine pollPeers_forall
    (P := fun s₁ => s₁.planner.HeapSound ∧ s₁.planner.numShards = s.planner.numShards)
    (R := fun d => d.chunkId < s.planner.numShards) peers
    (fun _ _ _ _ hstep hs₁ => ⟨hstep.heapSound hs₁.1, hstep.numShards_eq.trans hs₁.2⟩) ?_ ⟨h, rfl⟩ d hd
  intro p _ s₁ entry payload hs₁ hentry _ _
  exact hs₁.2 ▸ hs₁.1.within entry hentry

/-- A poll dispatches one shard to a peer. -/
theorem pollChunks_targets_nodup (s : RsStrategy) : (s.pollChunks.1.map ChunkDispatch.target).Nodup := by
  refine List.Nodup.of_map Prod.fst ?_
  rw [List.map_map]
  exact s.attachedPeers.nodup_toList.sublist s.pollChunks_spec.peers_sublist

/-! ## What is left to dispatch -/

/-- The pairs of an attached peer and a shard that is not in flight to it. -/
def openPairs (s : RsStrategy) : Finset (PeerId × Nat) :=
  (s.attachedPeers.toList.toFinset ×ˢ Finset.range s.planner.numShards).filter fun x =>
    x.2 ∉ s.planner.inFlightTo x.1

/-- A pair of a peer and a shard is open unless the shard is in flight to the peer. -/
theorem mem_openPairs {x : PeerId × Nat} : x ∈ s.openPairs
    ↔ (x.1 ∈ s.attachedPeers ∧ x.2 < s.planner.numShards) ∧ x.2 ∉ s.planner.inFlightTo x.1 := by
  simp only [openPairs, Finset.mem_filter, Finset.mem_product, List.mem_toFinset, ExtTreeSet.mem_toList,
    Finset.mem_range]

/-- There are no more open pairs than peers times shards. -/
theorem card_openPairs_le (s : RsStrategy) :
    s.openPairs.card ≤ s.planner.numShards * s.attachedPeers.toList.length := by
  refine (Finset.card_filter_le _ _).trans ?_
  rw [Finset.card_product, Finset.card_range, Nat.mul_comm]
  exact Nat.mul_le_mul_left _ (List.toFinset_card_le _)

theorem openPairs_pollRouting (s : RsStrategy) (force : Bool) :
    (s.pollRouting force).2.openPairs = s.openPairs := by
  rcases s.pollRouting_cases force with h | h <;> rw [h]
  rfl

/-- A poll opens no pair. -/
theorem openPairs_pollChunks (s : RsStrategy) : s.pollChunks.2.openPairs ⊆ s.openPairs := by
  intro x hx
  obtain ⟨⟨hpeer, hlt⟩, hfree⟩ := mem_openPairs.mp hx
  rw [s.pollChunks_spec.attachedPeers_eq] at hpeer
  have hlt' : x.2 < s.planner.numShards := pollPeers_numShards _ s ▸ hlt
  exact mem_openPairs.mpr ⟨⟨hpeer, hlt'⟩, fun hflying => hfree (pollPeers_flying _ hflying)⟩

/-- A dispatch is of a pair that was open. -/
theorem target_mem_openPairs (h : s.planner.HeapSound) {d : ChunkDispatch Nat} (hd : d ∈ s.pollChunks.1) :
    d.target ∈ s.openPairs :=
  mem_openPairs.mpr ⟨⟨pollChunks_peer_mem hd, chunkId_lt_of_mem_pollPeers h hd⟩,
    not_flying_of_mem_pollPeers hd⟩

/-- The pair of a dispatch is not open any more. -/
theorem target_not_mem_openPairs {d : ChunkDispatch Nat} (hd : d ∈ s.pollChunks.1) :
    d.target ∉ s.pollChunks.2.openPairs := fun hopen =>
  (mem_openPairs.mp hopen).2 (flying_of_mem_pollPeers hd)

/-- **A poll that dispatches leaves less to dispatch.** -/
theorem openPairs_pollChunks_ssubset (h : s.planner.HeapSound) (hne : s.pollChunks.1 ≠ []) :
    s.pollChunks.2.openPairs ⊂ s.openPairs := by
  obtain ⟨d, hd⟩ := List.exists_mem_of_ne_nil _ hne
  exact (Finset.ssubset_iff_of_subset s.openPairs_pollChunks).mpr
    ⟨d.target, target_mem_openPairs h hd, target_not_mem_openPairs hd⟩

/-! ## What is left to route -/

/-- A poll of the routing is not due. -/
def Quiet (s : RsStrategy) : Prop := s.pollRouting false = (none, s)

/-- Whether an update is due can be read off the store and the last count announced. -/
theorem pollRouting_fst_congr (hstore : SameStore s s')
    (hlast : s'.lastRoutingEmittedCount = s.lastRoutingEmittedCount) (force : Bool) :
    (s'.pollRouting force).1 = (s.pollRouting force).1 := by
  have hhave : s'.localHavelist = s.localHavelist := by
    rw [localHavelist, localHavelist, hstore.chunks_eq, hstore.totalShards_eq]
  have hthreshold : ∀ n, s'.bitmapThresholdReached n = s.bitmapThresholdReached n := fun n => by
    rw [bitmapThresholdReached, bitmapThresholdReached, hstore.config_eq, hstore.totalShards_eq]
  simp only [pollRouting, hstore.config_eq, hhave, hlast, hthreshold]
  split
  · rfl
  · split <;> rfl

/-- A relay that had nothing to say has nothing to say again. -/
theorem Quiet.of_none (h : (s.pollRouting false).1 = none) : s.Quiet := by
  rcases s.pollRouting_cases false with hr | hr
  · exact hr
  · rw [hr] at h
    cases h

/-- A poll gives it nothing to say. -/
theorem Quiet.pollChunks (h : s.Quiet) : s.pollChunks.2.Quiet := by
  refine .of_none ?_
  rw [pollRouting_fst_congr s.pollChunks_spec.sameStore s.pollChunks_spec.lastRouting_eq, h]

/-- **After a poll of the routing another one is not due.** -/
theorem quiet_pollRouting (s : RsStrategy) : (s.pollRouting false).2.Quiet := by
  rcases s.pollRouting_cases false with hr | hr <;> rw [hr]
  · exact hr
  · exact Announced.quiet rfl

end RsStrategy

end Ethp2p
