/-
# Ethp2p.Departures — what a disconnect takes with it.

Seven structures at three levels know a peer, and `PeerDisconnected` has to find them all.  Only the
engine's own maps are purged outright; a session is told to detach the peer by its channel, and only if
the peer subscribes to it.  That reaches everything because a session is attached to subscribers only,
flies shards to attached peers only, and keeps planner states of attached peers only.  What it refunds
is right because the planner's flights are the strategy's, and each has an allocation of its own.

The books are so in every run whose send results name the peer of the flight they resolve, and whose
polls wrap no counter, neither that of the handles nor the count of a shard (`run_disconnect`).  A late result of an earlier life that names a stranger
leaves a planner state that no disconnect reaches (`run_not_disconnect`).
-/
import Ethp2p.Attachments
import Ethp2p.Bookkeeping
import Ethp2p.Strategy.Rs.Forwarding

namespace Ethp2p

open Std

/-! ## One strategy -/

/-- A peer that is removed is forgotten, and nobody else. -/
theorem EmitPlanner.get_removePeer (pl : EmitPlanner) (p q : PeerId) :
    (pl.removePeer p).peers[q]? = if p = q then none else pl.peers[q]? := by
  unfold removePeer
  cases hp : pl.peers[p]? with
  | none =>
    dsimp only
    split
    case isTrue hq => rw [← hq, hp]
    case isFalse => rfl
  | some state =>
    dsimp only
    rw [(refundAll_spec state.inFlight.toList state.inFlight.nodup_toList _).2.2]
    exact BTreeMap.get_erase ..

namespace RsStrategy

variable {s : RsStrategy} {p : PeerId} {idx : Nat}

/-- The number of handles under which a shard is in flight to a peer. -/
def flightsTo (s : RsStrategy) (p : PeerId) (idx : Nat) : Nat :=
  (s.inFlight.filter fun _ v => v = (p, idx)).size

/-- A shard is in flight to a peer once, if at all. -/
theorem Matched.flightsTo_eq (h : s.Matched) (p : PeerId) (idx : Nat) :
    s.flightsTo p idx = if idx ∈ s.planner.inFlightTo p then 1 else 0 := by
  have hmem : ∀ k : DispatchHandle, (k ∈ s.inFlight.filter fun _ v => v = (p, idx))
      ↔ s.inFlight[k]? = some (p, idx) := by
    intro k
    rw [BTreeMap.mem_filter_iff]
    simp
  rw [flightsTo, BTreeMap.size_eq_card]
  by_cases hfly : idx ∈ s.planner.inFlightTo p
  · rw [if_pos hfly, Finset.card_eq_one]
    obtain ⟨k, hk⟩ := h.handled p idx hfly
    refine ⟨k, Finset.ext fun k' => ?_⟩
    rw [Finset.mem_filter, Finset.mem_singleton, hmem]
    refine ⟨fun hk' => h.unique k' k _ hk'.2 hk, ?_⟩
    rintro rfl
    exact ⟨Finset.mem_univ _, hk⟩
  · rw [if_neg hfly, Finset.card_eq_zero, Finset.filter_eq_empty_iff]
    exact fun k _ hk => hfly (h.planned k p idx ((hmem k).mp hk))

/-- The peer is gone from the strategy, and with it the allocations of its flights; nothing else has
changed. -/
structure Departed (p : PeerId) (s s' : RsStrategy) : Prop where
  detached : p ∉ s'.attachedPeers
  landed : ∀ (k : DispatchHandle) idx, s'.inFlight[k]? ≠ some (p, idx)
  forgotten : p ∉ s'.planner.peers
  refunded : ∀ idx, s.flightsTo p idx ≤ 1
    ∧ s'.planner.allocationCount idx + s.flightsTo p idx = s.planner.allocationCount idx
  attached_iff : ∀ q, q ≠ p → (q ∈ s'.attachedPeers ↔ q ∈ s.attachedPeers)
  flying_iff : ∀ (k : DispatchHandle) v, v.1 ≠ p → (s'.inFlight[k]? = some v ↔ s.inFlight[k]? = some v)
  state_eq : ∀ q, q ≠ p → s'.planner.peers[q]? = s.planner.peers[q]?

/-- A peer that is detached departs. -/
theorem Departed.of_detach (hmatched : s.Matched) (hcovered : s.Covered) :
    Departed p s (s.detachPeer p false) where
  detached hp := ((BTreeSet.mem_erase_iff _ _ _).mp hp).1 rfl
  landed k idx hk := (get_detachPeer.mp hk).2 rfl
  forgotten hp := by
    have hget := s.planner.get_removePeer p p
    rw [if_pos rfl] at hget
    exact BTreeMap.not_mem_of_get hget hp
  refunded idx := by
    have hflying := s.planner.flyingCount_removePeer p idx
    have hallocated := hcovered.covered idx
    have halloc : (s.detachPeer p false).planner.allocationCount idx = _ :=
      (s.planner.removePeer_spec p).1 idx
    rw [halloc, hmatched.flightsTo_eq]
    by_cases hfly : idx ∈ s.planner.inFlightTo p
    · simp only [if_pos hfly] at hflying ⊢
      omega
    · simp only [if_neg hfly]
      omega
  attached_iff q hq := (BTreeSet.mem_erase_iff _ _ _).trans (and_iff_right (Ne.symm hq))
  flying_iff k v hv := get_detachPeer.trans (and_iff_left hv)
  state_eq q hq := (s.planner.get_removePeer p q).trans (if_neg (Ne.symm hq))

/-- A peer that is not attached has departed. -/
theorem Departed.of_not_attached (hmatched : s.Matched) (hcontained : s.Contained)
    (hp : p ∉ s.attachedPeers) : Departed p s s where
  detached := hp
  landed k idx hk := hp (hcontained.flying k _ hk)
  forgotten hmem := hp (hcontained.planned p hmem)
  refunded idx := by
    have hfree : idx ∉ s.planner.inFlightTo p := by
      intro hfly
      obtain ⟨k, hk⟩ := hmatched.handled p idx hfly
      exact hp (hcontained.flying k _ hk)
    rw [hmatched.flightsTo_eq, if_neg hfree]
    exact ⟨Nat.zero_le 1, rfl⟩
  attached_iff _ _ := .rfl
  flying_iff _ _ _ := .rfl
  state_eq _ _ := rfl

end RsStrategy

/-! ## What keeps the books -/

section Kept

variable [Crates]

/-- Polling the session wraps neither its handle counter nor the count of a shard. -/
structure Session.WrapsNothing (s : Session RsStrategy) : Prop where
  handles : s.Unwrapped
  counts : s.strategy.CountsFit

/-- Polls that wrap no handle counter keep the books. -/
theorem Session.booked_kept : Session.KeptWhile Session.Unwrapped fun s => s.strategy.Booked where
  built h := h.fresh.booked
  attach p hs := hs.congr rfl (fun _ _ => .rfl) rfl fun q hq => (BTreeSet.mem_insert_iff _ _ _).mpr (.inr hq)
  detach p completed hs := hs.detachPeer p completed
  poll {s} hunwrapped hs := by
    have hroute : (s.strategy.pollRouting false).2.Booked
        ∧ (s.strategy.pollRouting false).2.nextHandle = s.strategy.nextHandle := by
      rcases s.strategy.pollRouting_cases false with hr | hr <;> rw [hr]
      · exact ⟨hs, rfl⟩
      · exact ⟨hs.congr rfl (fun _ _ => .rfl) rfl fun _ => id, rfl⟩
    exact hroute.1.pollPeers _ (fun p hp => ExtTreeSet.mem_toList.mp hp) (by rw [hroute.2]; exact hunwrapped)
  sent p handle ok hown hs := hs.chunkSent p handle ok hown
  take {s} idx data hs := by
    obtain ⟨chunks, hchunks⟩ := s.takeChunk_chunks idx data
    rw [hchunks]
    exact hs.congr rfl (fun _ _ => .rfl) rfl fun _ => id
  finish {s} hs := by rwa [s.decodeAndFinish_strategy]

/-- Every operation keeps the heap ranked. -/
theorem Session.ranked_kept : Session.Kept fun s => s.strategy.planner.HeapRanked where
  built h := h.fresh.heapRanked
  attach p hs := hs
  detach p completed hs := RsStrategy.applyOp_heapRanked hs (.detach p completed)
  poll hs := RsStrategy.applyOp_heapRanked (RsStrategy.applyOp_heapRanked hs (.pollRouting false)) .pollChunks
  sent p handle ok _ hs := RsStrategy.applyOp_heapRanked hs (.sent p handle ok)
  take {s} idx data hs := by
    rw [s.takeChunk_strategy]
    split
    · exact RsStrategy.applyOp_heapRanked hs (.take idx data)
    · exact hs
  finish {s} hs := by rwa [s.decodeAndFinish_strategy]

/-- Polls whose counts fit leave what is in flight covered. -/
theorem Session.covered_kept : Session.KeptWhile (fun s => s.strategy.CountsFit)
    fun s => s.strategy.planner.HeapRanked ∧ s.strategy.Covered where
  built h := ⟨h.fresh.heapRanked, h.fresh.covered⟩
  attach p hs := ⟨hs.1, hs.2.applyOp (.attach p) trivial nofun⟩
  detach p completed hs := ⟨ranked_kept.detach p completed hs.1, hs.2.detachPeer p completed⟩
  poll {s} hfits hs := by
    refine ⟨ranked_kept.poll hs.1, ?_⟩
    have hroute := RsStrategy.applyOp_heapRanked hs.1 (.pollRouting false)
    have hcovered := hs.2.applyOp (.pollRouting false) trivial nofun
    refine hcovered.pollChunks hroute ?_
    show (s.strategy.pollRouting false).2.CountsFit
    rcases s.strategy.pollRouting_cases false with hr | hr <;> rw [hr] <;> exact hfits
  sent p handle ok hown hs := ⟨ranked_kept.sent p handle ok hown hs.1, hs.2.chunkSent p handle ok hown⟩
  take {s} idx data hs := by
    refine ⟨ranked_kept.take idx data hs.1, ?_⟩
    rw [s.takeChunk_strategy]
    split
    · exact hs.2.applyOp (.take idx data) trivial nofun
    · exact hs.2
  finish {s} hs := by rwa [s.decodeAndFinish_strategy]

/-- The books of a session are in order. -/
structure Session.InOrder (s : Session RsStrategy) : Prop where
  booked : s.strategy.Booked
  ranked : s.strategy.planner.HeapRanked
  covered : s.strategy.Covered
  contained : s.strategy.Contained

/-- Every operation that wraps no handle keeps the session in order. -/
theorem Session.inOrder_kept : Session.KeptWhile Session.WrapsNothing Session.InOrder := by
  have hkept := (Session.booked_kept.mono fun _ h => h.handles).and
    ((Session.covered_kept.mono fun _ h => h.counts).and (Session.contained_kept.keptWhile Session.WrapsNothing))
  exact hkept.congr fun s => ⟨fun h => ⟨h.1, h.2.1.1, h.2.1.2, h.2.2⟩,
    fun h => ⟨h.booked, ⟨h.ranked, h.covered⟩, h.contained⟩⟩

end Kept

/-! ## The engine -/

namespace Engine

section Steps

variable [Crates] {e : Engine RsStrategy Wire} {i : Input RsStrategy} {p : PeerId}

/-- A send result for a flight of a live session names the peer of the flight. -/
def NamesOwn (e : Engine RsStrategy Wire) : Input RsStrategy → Prop
  | .event (.chunkSendResult peer c m token _) => (c, m, token) ∈ e.pendingSends →
    ∀ s ∈ e.session? c m, ∀ v ∈ s.strategy.inFlight[token]?, v.1 = peer
  | _ => True

instance (e : Engine RsStrategy Wire) : DecidablePred e.NamesOwn := fun i =>
  match i with
  | .event (.chunkSendResult peer c m token _) =>
    inferInstanceAs (Decidable ((c, m, token) ∈ e.pendingSends →
      ∀ s ∈ e.session? c m, ∀ v ∈ s.strategy.inFlight[token]?, v.1 = peer))
  | .subscribe .. | .connect _ | .publish .. | .recv | .event (.handshake ..)
  | .event (.subscribe ..) | .event (.unsubscribe ..) | .event (.sessionOpen ..)
  | .event (.routingUpdate ..) | .event (.chunk ..) | .event (.peerDisconnected _)
  | .event (.peerConnected _) | .event (.peerReconstructed ..) | .event (.sessionClosed ..) =>
    .isTrue trivial

/-- A step keeps every session in order. -/
theorem step_inOrder (hi : i.Valid) (he : e.RelayFactories) (hpolls : e.StepPolls Session.WrapsNothing i)
    (hown : e.NamesOwn i) (hold : ∀ k s, (e.ledger k).session = some s → s.InOrder) (k : SessionKey) :
    ∀ s, ((e.step i).2.ledger k).session = some s → s.InOrder := by
  refine step_keptWhile Session.inOrder_kept hi he hpolls ?_ hold k
  rintro peer c m token ok rfl hpending s hs hinOrder
  exact Session.inOrder_kept.sent peer token ok (hown hpending s hs) hinOrder

/-- No trace of a peer is left: not in the connections, the pending sends, the opened sets, the
subscribers, nor in any session, whose allocations are refunded; what is there of other peers is as
before. -/
structure Purged (p : PeerId) (e e' : Engine RsStrategy Wire) : Prop where
  connected : p ∉ e'.connected
  pending : ∀ k : ChannelId × MessageId × DispatchHandle, e'.pendingSends[k]? ≠ some p
  opened : ∀ k : SessionKey, ¬ e'.openedTo[k]?.any (p ∈ ·)
  subscribed : ∀ c, p ∉ e'.subscribersOf c
  live : ∀ c m, (e'.session? c m).isSome = (e.session? c m).isSome
  departed : ∀ c m s s', e.session? c m = some s → e'.session? c m = some s' →
    s.strategy.Departed p s'.strategy
  connected_iff : ∀ q, q ≠ p → (q ∈ e'.connected ↔ q ∈ e.connected)
  pending_iff : ∀ (k : ChannelId × MessageId × DispatchHandle) q, q ≠ p →
    (e'.pendingSends[k]? = some q ↔ e.pendingSends[k]? = some q)
  opened_iff : ∀ (k : SessionKey) q, q ≠ p →
    (e'.openedTo[k]?.any (q ∈ ·) ↔ e.openedTo[k]?.any (q ∈ ·))
  subscribed_iff : ∀ c q, q ≠ p → (q ∈ e'.subscribersOf c ↔ q ∈ e.subscribersOf c)

/-- **One disconnect**, of an engine whose books are in order and whose sessions are attached to
subscribers only. -/
theorem purged_of_inOrder
    (hinOrder : ∀ c m, ∀ s ∈ e.session? c m, s.InOrder)
    (hattached : ∀ c m, ∀ s ∈ e.session? c m, ∀ q ∈ s.strategy.attachedPeers, q ∈ e.subscribersOf c) (p : PeerId) :
    Purged p e (e.handleEvent (.peerDisconnected p)) := by
  show Purged p e (e.handlePeerDisconnected p)
  -- the sessions of the channels it subscribed to lose it; the others are as they were
  have hsession : ∀ c m, (e.handlePeerDisconnected p).session? c m
      = if p ∈ e.subscribersOf c then (e.session? c m).map (·.detachPeer p false)
        else e.session? c m := by
    intro c m
    have hledger := congrArg Ledger.session (disconnected_ledger (e := e) (k := (c, m)) p)
    by_cases hp : p ∈ e.subscribersOf c
    · rw [if_pos hp]
      exact hledger.trans (if_pos (mem_subscribersOf.mp hp))
    · rw [if_neg hp]
      exact hledger.trans (if_neg fun hmem => hp (mem_subscribersOf.mpr hmem))
  have hsubscribed : ∀ c q, q ∈ (e.handlePeerDisconnected p).subscribersOf c
      ↔ p ≠ q ∧ q ∈ e.subscribersOf c := by
    intro c q
    have hledger := congrArg Ledger.subscribers (disconnected_ledger (e := e) (k := (c, "")) p)
    have hsubs : (e.handlePeerDisconnected p).channels[c]?.map Channel.subscribers
        = (e.channels[c]?.map Channel.subscribers).map (·.erase p) := hledger
    rw [mem_subscribersOf, mem_subscribersOf, hsubs]
    cases e.channels[c]? <;> simp
  have hopened : ∀ (k : SessionKey) q, (e.handlePeerDisconnected p).openedTo[k]?.any (q ∈ ·)
      ↔ p ≠ q ∧ e.openedTo[k]?.any (q ∈ ·) := by
    intro k q
    show (e.openedTo.map fun _ s => s.erase p)[k]?.any (q ∈ ·) ↔ _
    rw [ExtTreeMap.getElem?_map]
    cases e.openedTo[k]? <;> simp
  have hpending : ∀ (k : ChannelId × MessageId × DispatchHandle) q,
      (e.handlePeerDisconnected p).pendingSends[k]? = some q ↔ e.pendingSends[k]? = some q ∧ q ≠ p := by
    intro k q
    show (e.pendingSends.filter fun _ q => q ≠ p)[k]? = some q ↔ _
    rw [BTreeMap.get_filter, Option.filter_eq_some_iff]
    simp
  refine {
    connected := fun hp => ((BTreeSet.mem_erase_iff _ _ _).mp hp).1 rfl
    pending := fun k hk => ((hpending k p).mp hk).2 rfl
    opened := fun k hk => ((hopened k p).mp hk).1 rfl
    subscribed := fun c hp => ((hsubscribed c p).mp hp).1 rfl
    live := fun c m => ?_
    departed := fun c m s s' hs hs' => ?_
    connected_iff := fun q hq => (BTreeSet.mem_erase_iff _ _ _).trans (and_iff_right (Ne.symm hq))
    pending_iff := fun k q hq => (hpending k q).trans (and_iff_left hq)
    opened_iff := fun k q hq => (hopened k q).trans (and_iff_right (Ne.symm hq))
    subscribed_iff := fun c q hq => (hsubscribed c q).trans (and_iff_right (Ne.symm hq)) }
  · rw [hsession]
    split <;> simp
  · obtain ⟨hbooked, -, hcovered, hcontained⟩ := hinOrder c m s hs
    rw [hsession] at hs'
    by_cases hp : p ∈ e.subscribersOf c
    · rw [if_pos hp, hs] at hs'
      obtain rfl := Option.some.inj hs'
      -- the detach gives every flight to the peer back, and no count wraps
      exact .of_detach hbooked.toMatched hcovered
    · rw [if_neg hp] at hs'
      obtain rfl := Option.some.inj (hs.symm.trans hs')
      -- a session it is not attached to has nothing in flight to it
      exact .of_not_attached hbooked.toMatched hcontained fun hattach => hp (hattached c m s hs p hattach)

/-- **A disconnect leaves no trace** in every run of valid inputs whose send results name the peer of
the flight they resolve, and whose polls wrap no counter. -/
theorem run_disconnect (localPeer : PeerId) (net : Wire) (delivered : Sink) (config : EngineConfig)
    (clock : Clock) (inputs : List (Input RsStrategy)) (hvalid : ∀ i ∈ inputs, i.Valid)
    (hown : (withConfig localPeer net delivered config clock).EachStep NamesOwn inputs)
    (hpolls : (withConfig localPeer net delivered config clock).EachStep (StepPolls Session.WrapsNothing)
      inputs) (p : PeerId) :
    Purged p ((withConfig localPeer net delivered config clock).run inputs)
      (((withConfig localPeer net delivered config clock).run inputs).handleEvent (.peerDisconnected p)) := by
  have hattached := run_attachedRight localPeer net delivered config clock hvalid
  have hinOrder := ((hown.and hpolls).run (Q := fun e => e.RelayFactories
      ∧ ∀ k s, (e.ledger k).session = some s → s.InOrder)
    (fun e i hi hstep hold => ⟨hold.1.step (hvalid i hi),
      step_inOrder (hvalid i hi) hold.1 hstep.2 hstep.1 hold.2⟩)
    ⟨relayFactories_withConfig localPeer net delivered config clock, fun k => by
      rw [ledger_withConfig]
      simp⟩).2
  exact purged_of_inOrder (fun c m s hs => hinOrder (c, m) s hs)
    (fun c m s hs q hq => ((hattached c m s q hs).mp hq).1) p

end Steps

section OneShard

attribute [local instance] oneShard

/-- A peer disconnects while both shards of a message are in flight to it. -/
theorem run_disconnect_publishing :
    (∀ i ∈ publishToOne, i.Valid)
    ∧ (nodeTicking 0).EachStep NamesOwn publishToOne
    ∧ (nodeTicking 0).EachStep (StepPolls Session.WrapsNothing) publishToOne
    ∧ Purged 1 ((nodeTicking 0).run publishToOne)
      (((nodeTicking 0).run publishToOne).handleEvent (.peerDisconnected 1)) := by
  have hown : (nodeTicking 0).EachStep NamesOwn publishToOne := by decide +kernel
  have hroom : (nodeTicking 0).EachStep (StepPolls fun s => s.Unwrapped ∧ s.strategy.Roomy) publishToOne := by
    decide +kernel
  have hpolls : (nodeTicking 0).EachStep (StepPolls Session.WrapsNothing) publishToOne :=
    hroom.mono fun e i hstep call hcall e' he' s hs =>
      ⟨(hstep call hcall e' he' s hs).1, (hstep call hcall e' he' s hs).2.countsFit⟩
  exact ⟨publishToOne_valid, hown, hpolls,
    run_disconnect _ _ _ _ _ publishToOne publishToOne_valid hown hpolls 1⟩

/-- The planner state that a late result of an earlier life leaves for peer 1 survives its disconnect:
peer 1 no longer subscribes, so no session is told. -/
theorem run_not_disconnect :
    ¬ Purged 1 ((nodeTicking (200 * second)).run publishAgain)
      (((nodeTicking (200 * second)).run publishAgain).handleEvent (.peerDisconnected 1)) := by
  intro h
  have hstays : (((nodeTicking (200 * second)).run publishAgain).session? "c" "m").any (fun _ =>
      ((((nodeTicking (200 * second)).run publishAgain).handleEvent
        (.peerDisconnected 1)).session? "c" "m").any (1 ∈ ·.strategy.planner.peers)) = true := by
    decide +kernel
  obtain ⟨s, hs, hstays⟩ := (Option.any_eq_true _ _).mp hstays
  obtain ⟨s', hs', hplanned⟩ := (Option.any_eq_true _ _).mp hstays
  exact (h.departed "c" "m" s s' hs hs').forgotten (of_decide_eq_true hplanned)

end OneShard

end Engine

end Ethp2p
