/-
# Ethp2p.Strategy.Rs.Flights — a shard goes to a peer once.

The planner passes over a shard that is in flight to the peer, or that the peer is taken to have
(`Blocks`).  `Flights` says that the strategy's handle map and the planner's books agree well enough for
this to count: what is in flight under a handle is in flight for the planner, under no other handle,
and there is room for it in the peer's havelist.  A poll then dispatches nothing that is blocked
(`Flights.pollPeers`), and what is blocked stays blocked until its flight fails or its peer leaves.

Callbacks must name the peer of their dispatch (`chunk_sent` books the outcome on the peer it is given).
-/
import Ethp2p.Strategy.Rs.Havelists

namespace Ethp2p

open Std

/-! ## What the planner passes over -/

namespace EmitPlanner

variable {pl pl' : EmitPlanner} {p q : PeerId} {idx i : Nat}

/-- The shard is in flight to the peer, or the peer is taken to have it. -/
def Blocks (pl : EmitPlanner) (p : PeerId) (idx : Nat) : Prop := idx ∈ pl.inFlightTo p ∨ pl.Had p idx

/-- A shard that can be picked for a peer is not blocked there. -/
theorem Eligible.not_blocks {entry : EmitEntry} (h : pl.Eligible p entry) : ¬ pl.Blocks p entry.idx := by
  rintro (hfly | ⟨b, hb, hget⟩)
  · exact h.not_flying hfly
  · rw [h.not_had b hb] at hget
    cases hget

/-- Nothing is unblocked, and nothing a peer is taken to have is forgotten. -/
structure Grows (pl pl' : EmitPlanner) : Prop where
  had : ∀ q i, pl.Had q i → pl'.Had q i
  blocks : ∀ q i, pl.Blocks q i → pl'.Blocks q i

namespace Grows

theorem refl (pl : EmitPlanner) : Grows pl pl := ⟨fun _ _ => id, fun _ _ => id⟩

theorem trans {pl'' : EmitPlanner} (h : Grows pl pl') (h' : Grows pl' pl'') : Grows pl pl'' :=
  ⟨fun q i hi => h'.had q i (h.had q i hi), fun q i hi => h'.blocks q i (h.blocks q i hi)⟩

/-- An operation that keeps the havelists and ends no flight. -/
theorem of_flights
    (hhave : ∀ q, (pl'.peerState q).optimisticHavelist = (pl.peerState q).optimisticHavelist)
    (hfly : ∀ q i, i ∈ pl.inFlightTo q → i ∈ pl'.inFlightTo q) : Grows pl pl' where
  had q _ hi := hi.congr (hhave q)
  blocks q i hi := hi.imp (hfly q i) fun hi => hi.congr (hhave q)

end Grows

theorem SameCounts.grows (h : SameCounts pl pl') : Grows pl pl' :=
  .of_flights (fun q => by rw [h.peerState_eq]) fun q i hi => by rwa [h.inFlightTo_eq]

/-- An allocation blocks more shards for the peer, and none fewer. -/
theorem Allocated.grows (h : Allocated p idx pl pl') : Grows pl pl' := by
  refine .of_flights h.havelist_eq fun q i hi => ?_
  rw [h.inFlightTo_eq]
  split
  case isTrue hq => exact (BTreeSet.mem_insert_iff _ _ _).mpr (.inr (hq ▸ hi))
  case isFalse => exact hi

/-- An allocation that is cancelled blocks none fewer, either. -/
theorem Allocated.grows_cancel (h : Allocated p idx pl pl') (hfree : idx ∉ pl.inFlightTo p) :
    Grows pl (pl'.cancelInFlight p idx) :=
  .of_flights h.havelist_cancel fun _ _ hi => (h.mem_cancel hfree).mpr hi

end EmitPlanner

namespace RsStrategy

/-- Whatever is in flight under a handle is in flight for the planner, under no other handle, and has
its place in every havelist. -/
structure Flights (s : RsStrategy) : Prop where
  heap : s.planner.HeapSound
  planned : ∀ (h : DispatchHandle) p idx, s.inFlight[h]? = some (p, idx) →
    idx ∈ s.planner.inFlightTo p ∧ idx < s.planner.numShards
  unique : ∀ (h h' : DispatchHandle) v, s.inFlight[h]? = some v → s.inFlight[h']? = some v → h = h'
  havelists : ∀ p, ∀ b ∈ (s.planner.peerState p).optimisticHavelist, b.n = s.planner.numShards

variable {s s' : RsStrategy} {p q : PeerId} {idx i : Nat}

/-- A pick blocks no fewer shards, whether it is kept or given back. -/
theorem PollStep.grows (h : PollStep p s s') : EmitPlanner.Grows s.planner s'.planner := by
  cases h with
  | idle hal hsame => exact hsame.grows
  | cancelled hal hentry helig hall hchunk => exact hall.grows_cancel helig.not_flying
  | dispatched hal hentry helig hall hchunk => exact hall.grows

namespace Flights

theorem toPlanned (h : s.Flights) : s.Planned := ⟨fun k p idx hk => (h.planned k p idx hk).1, h.unique⟩

theorem toSized (h : s.Flights) : s.Sized := ⟨h.heap, fun k v hk => (h.planned k v.1 v.2 hk).2, h.havelists⟩

theorem of_sized (h : s.Sized) (hplanned : s.Planned) : s.Flights :=
  ⟨h.heap, fun k p idx hk => ⟨hplanned.planned k p idx hk, h.flying k _ hk⟩, hplanned.unique, h.havelists⟩

/-- Only the handle map and the planner matter. -/
theorem congr (h : s.Flights) (hfl : s'.inFlight = s.inFlight) (hpl : s'.planner = s.planner) :
    s'.Flights := by
  refine of_sized (h.toSized.congr hfl hpl) (h.toPlanned.congr hfl fun q i hi => ?_)
  rwa [hpl]

/-- **A poll dispatches nothing that is blocked, and unblocks nothing.** -/
theorem pollPeers (h : s.Flights) (peers : List PeerId) :
    (pollPeers peers s).2.Flights
      ∧ EmitPlanner.Grows s.planner (RsStrategy.pollPeers peers s).2.planner
      ∧ ∀ d ∈ (RsStrategy.pollPeers peers s).1, ¬ s.planner.Blocks d.peer d.chunkId := by
  have hstep : ∀ p ∈ peers, ∀ s₁ s₂, PollStep p s₁ s₂ → EmitPlanner.Grows s.planner s₁.planner →
      EmitPlanner.Grows s.planner s₂.planner := fun _ _ _ _ hstep hgrows => hgrows.trans hstep.grows
  refine ⟨of_sized (h.toSized.pollPeers peers) (h.toPlanned.pollPeers peers),
    pollPeers_induct peers hstep (.refl _), ?_⟩
  refine pollPeers_forall peers hstep (fun p _ s₁ entry payload hgrows _ helig _ hblocked => ?_) (.refl _)
  exact helig.not_blocks (hgrows.blocks _ _ hblocked)

/-- A peer leaves, with its flights. -/
theorem detachPeer (h : s.Flights) (p : PeerId) (completed : Bool) : (s.detachPeer p completed).Flights :=
  of_sized (h.toSized.detachPeer p completed) (h.toPlanned.detachPeer p completed)

/-- An outcome is booked on the peer of its flight. -/
theorem chunkSent (h : s.Flights) (p : PeerId) (k : DispatchHandle) (ok : Bool)
    (hown : ∀ v ∈ s.inFlight[k]?, v.1 = p) : (s.chunkSent p k ok).Flights :=
  of_sized (h.toSized.chunkSent p k ok) (h.toPlanned.chunkSent p k ok hown)

/-- A shard whose flight succeeded is in its peer's havelist. -/
theorem had_of_sent (h : s.Flights) {k : DispatchHandle} (hk : s.inFlight[k]? = some (p, idx)) :
    (s.chunkSent p k true).planner.Had p idx :=
  h.toSized.had_of_sent hk

end Flights

/-- A new strategy has no flights. -/
theorem Fresh.flights (h : s.Fresh) : s.Flights := .of_sized h.sized h.planned

end RsStrategy

end Ethp2p
