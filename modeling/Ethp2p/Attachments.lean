/-
# Ethp2p.Attachments — who a session is attached to.

A session is attached to the subscribers of its channel, less those that said they are done with it
(`PeerReconstructed`, `SessionClosed`).  Attachments are made when a peer subscribes and when a session
is created, and undone by five events; `run_attachments` says that what is left is the right set in
every reachable state, and that a peer that is done is sent no chunk of the session as long as it
stays subscribed.

The strategy keeps two more records of its peers, the flights and the planner's peer states.  The
flights are of attached peers in every run.  The planner's states are so exactly as long as every
`ChunkSendResult` names an attached peer: `chunk_sent` books the outcome on the peer of the EVENT, and
`run_not_contained` shows a late result of an earlier life that creates a state for a stranger.
-/
import Ethp2p.Engine.Ledger
import Ethp2p.Strategy.Rs.OneShard

namespace Ethp2p

open Std

/-! ## The peers of one strategy -/

namespace EmitPlanner

variable {pl : EmitPlanner} {p q : PeerId}

theorem mem_peers_modifyPeer {f : PeerState → PeerState} :
    q ∈ (pl.modifyPeer p f).peers ↔ p = q ∨ q ∈ pl.peers := by
  simp only [modifyPeer, ExtTreeMap.mem_iff_isSome_getElem?, BTreeMap.get_alter]
  split
  case isTrue h => simp [h]
  case isFalse h => simp [h]

/-- Whom the planner knows after each operation: those it knew, and the peer the operation names. -/
theorem mem_peers_allocate (h : q ∈ (pl.allocate p).2.peers) : p = q ∨ q ∈ pl.peers := by
  unfold allocate at h
  dsimp only at h
  split at h
  · exact mem_peers_modifyPeer.mp h
  · rcases mem_peers_modifyPeer.mp h with h | h
    · exact .inl h
    · exact mem_peers_modifyPeer.mp h

theorem mem_peers_recordSent {idx : Nat} (h : q ∈ (pl.recordSent p idx).peers) :
    p = q ∨ q ∈ pl.peers := by
  unfold recordSent at h
  dsimp only at h
  exact mem_peers_modifyPeer.mp h

theorem mem_peers_refund {idx : Nat}
    (h : q ∈ ((pl.cancelInFlight p idx).refundAllocation idx).peers) : p = q ∨ q ∈ pl.peers := by
  rw [((pl.cancelInFlight p idx).refundAllocation_spec idx).2.2] at h
  exact mem_peers_modifyPeer.mp h

/-- A removed peer is unknown to the planner; nobody else is forgotten, and nobody is learnt. -/
theorem mem_peers_removePeer (h : q ∈ (pl.removePeer p).peers) : p ≠ q ∧ q ∈ pl.peers := by
  unfold removePeer at h
  cases hp : pl.peers[p]? with
  | none =>
    rw [hp] at h
    refine ⟨?_, h⟩
    rintro rfl
    exact BTreeMap.not_mem_of_get hp h
  | some state =>
    rw [hp] at h
    dsimp only at h
    rw [(refundAll_spec state.inFlight.toList state.inFlight.nodup_toList _).2.2] at h
    simpa [ExtTreeMap.mem_erase] using h

end EmitPlanner

namespace RsStrategy

/-- Flights and planner states are of attached peers. -/
structure Contained (s : RsStrategy) : Prop where
  flying : ∀ (h : DispatchHandle) v, s.inFlight[h]? = some v → v.1 ∈ s.attachedPeers
  planned : ∀ p ∈ s.planner.peers, p ∈ s.attachedPeers

variable {s : RsStrategy}

theorem Fresh.attachedPeers (h : s.Fresh) : s.attachedPeers = ∅ := by
  obtain ⟨config, preamble, chunks, n, seed, mode, rfl⟩ := h
  rfl

/-- A new strategy knows nobody. -/
theorem Fresh.contained (h : s.Fresh) : s.Contained := by
  obtain ⟨config, preamble, chunks, n, seed, mode, rfl⟩ := h
  exact ⟨by simp [withParts], by simp [withParts, EmitPlanner.new]⟩

namespace Contained

theorem attachPeer (h : s.Contained) (p : PeerId) : (s.attachPeer p).Contained where
  flying k v hv := (BTreeSet.mem_insert_iff _ _ _).mpr (.inr (h.flying k v hv))
  planned q hq := (BTreeSet.mem_insert_iff _ _ _).mpr (.inr (h.planned q hq))

/-- A detached peer is taken off both sides. -/
theorem detachPeer (h : s.Contained) (p : PeerId) (completed : Bool) :
    (s.detachPeer p completed).Contained where
  flying k v hv := by
    have hv' : (s.inFlight.filter fun _ v => v.1 ≠ p)[k]? = some v := hv
    rw [BTreeMap.get_filter, Option.filter_eq_some_iff] at hv'
    obtain ⟨hv, hne⟩ := hv'
    exact (BTreeSet.mem_erase_iff _ _ _).mpr ⟨Ne.symm (of_decide_eq_true hne), h.flying k v hv⟩
  planned q hq := by
    obtain ⟨hne, hq⟩ := EmitPlanner.mem_peers_removePeer hq
    exact (BTreeSet.mem_erase_iff _ _ _).mpr ⟨hne, h.planned q hq⟩

/-- An outcome is booked on the peer it names, which must be attached. -/
theorem chunkSent (h : s.Contained) {p : PeerId} {k : DispatchHandle}
    (hp : (s.inFlight[k]?).isSome → p ∈ s.attachedPeers) (ok : Bool) :
    (s.chunkSent p k ok).Contained := by
  have hatt := s.chunkSent_attachedPeers p k ok
  refine ⟨fun k' v hv => ?_, fun q hq => ?_⟩
  · rw [chunkSent_inFlight, BTreeMap.get_erase] at hv
    rw [hatt]
    split at hv
    · cases hv
    · exact h.flying k' v hv
  · rw [hatt]
    unfold RsStrategy.chunkSent at hq
    cases hk : s.inFlight[k]? with
    | none =>
      rw [hk] at hq
      exact h.planned q hq
    | some v =>
      have hmem : p = q ∨ q ∈ s.planner.peers := by
        rw [hk] at hq
        cases ok
        · exact EmitPlanner.mem_peers_refund hq
        · exact EmitPlanner.mem_peers_recordSent hq
      rcases hmem with rfl | hmem
      · exact hp (by simp [hk])
      · exact h.planned q hmem

/-- A poll allocates to attached peers only. -/
theorem pollPeers (h : s.Contained) (peers : List PeerId) (hpeers : ∀ p ∈ peers, p ∈ s.attachedPeers) :
    (pollPeers peers s).2.Contained := by
  induction peers generalizing s with
  | nil => exact h
  | cons p peers ih =>
    have hp := hpeers p List.mem_cons_self
    have hrest : ∀ q ∈ peers, q ∈ s.attachedPeers := fun q hq => hpeers q (List.mem_cons_of_mem p hq)
    have hplanned : ∀ q ∈ (s.planner.allocate p).2.peers, q ∈ s.attachedPeers := by
      intro q hq
      rcases EmitPlanner.mem_peers_allocate hq with rfl | hq
      · exact hp
      · exact h.planned q hq
    -- the peer's turn: nothing is allocated, or a shard that is not held and is given back, or a dispatch
    rcases hal : s.planner.allocate p with ⟨_ | idx, planner⟩ <;> rw [hal] at hplanned
    · rw [pollPeers_idle hal]
      exact ih (s := { s with planner }) ⟨h.flying, hplanned⟩ hrest
    · cases hchunk : s.chunkAt idx with
      | none =>
        rw [pollPeers_cancel hal hchunk]
        refine ih (s := { s with planner := planner.cancelInFlight p idx }) ⟨h.flying, fun q hq => ?_⟩ hrest
        rcases EmitPlanner.mem_peers_modifyPeer.mp hq with rfl | hq
        · exact hp
        · exact hplanned q hq
      | some payload =>
        rw [pollPeers_dispatch hal hchunk]
        refine ih (s := s.dispatched planner p idx) ⟨fun k v hv => ?_, hplanned⟩ hrest
        simp only [dispatched, BTreeMap.get_insert] at hv
        split at hv
        · cases hv
          exact hp
        · exact h.flying k v hv

end Contained

end RsStrategy

namespace Session

variable [Crates] (s : Session RsStrategy)

/-- Neither a poll nor a chunk attaches a peer. -/
theorem poll_attachedPeers : s.poll.2.strategy.attachedPeers = s.strategy.attachedPeers := by
  have hpoll := (s.strategy.pollRouting false).2.pollChunks_spec.attachedPeers_eq
  rcases s.strategy.pollRouting_cases false with hr | hr <;> rw [hr] at hpoll <;>
    simp [Session.poll, Strategy.pollRouting, Strategy.pollChunks, hr, hpoll]

theorem poll_contained (h : s.strategy.Contained) : s.poll.2.strategy.Contained := by
  have hroute : (s.strategy.pollRouting false).2.Contained := by
    rcases s.strategy.pollRouting_cases false with hr | hr <;> rw [hr]
    · exact h
    · exact ⟨h.flying, h.planned⟩
  exact hroute.pollPeers _ fun p hp => ExtTreeSet.mem_toList.mp hp

theorem takeChunk_attachedPeers (idx : Nat) (data : Bytes) :
    (s.takeChunk idx data).2.strategy.attachedPeers = s.strategy.attachedPeers := by
  obtain ⟨chunks, hchunks⟩ := s.takeChunk_chunks idx data
  rw [hchunks]

/-- A new session has all the peers it is given. -/
theorem mem_attachedPeers_attachEach (ps : List PeerId) (q : PeerId) :
    q ∈ (ps.foldl attachPeer s).strategy.attachedPeers ↔ q ∈ ps ∨ q ∈ s.strategy.attachedPeers := by
  induction ps generalizing s with
  | nil => simp
  | cons p ps ih =>
    rw [List.foldl_cons, ih, List.mem_cons]
    have hattach : q ∈ (s.attachPeer p).strategy.attachedPeers ↔ p = q ∨ q ∈ s.strategy.attachedPeers :=
      BTreeSet.mem_insert_iff _ _ _
    rw [hattach, eq_comm (a := q)]
    tauto

end Session

/-! ## One ledger -/

/-- The input says that peer `p` is done with the session of `k`. -/
def Input.leaves (p : PeerId) (k : SessionKey) : Input RsStrategy → Prop
  | .event (.peerReconstructed peer c m) | .event (.sessionClosed peer c m) => peer = p ∧ (c, m) = k
  | _ => False

namespace Ledger

/-- The peer subscribes to the channel. -/
def Subscribed (L : Ledger) (p : PeerId) : Prop := L.subscribers.any (p ∈ ·)

/-- The peer is attached to the session. -/
def Attached (L : Ledger) (p : PeerId) : Prop := L.session.any (p ∈ ·.strategy.attachedPeers)

/-- Everything one change can make of the attachment of `p` to the session of `k`. -/
inductive Reattached (A : Premises) (i : Input RsStrategy) (k : SessionKey) (p : PeerId)
    (L L' : Ledger) : Prop
  /-- Nothing; the channel may be hosted, without subscribers. -/
  | kept (hlive : L'.session.isSome = L.session.isSome) (hatt : L'.Attached p ↔ L.Attached p)
      (hsub : L'.Subscribed p ↔ L.Subscribed p)
      (hhosted : L'.subscribers.isSome → L.subscribers.isSome ∨ ∃ factory, i = .subscribe k.1 factory)
  /-- It subscribes. -/
  | joined (hi : Engine.Announces i p k.1) (hnew : ¬ L.Subscribed p) (hhosted : L.subscribers.isSome)
      (hlive : L'.session.isSome = L.session.isSome) (hsub : L'.Subscribed p)
      (hatt : L.session.isSome → L'.Attached p)
  /-- It unsubscribes, or is gone. -/
  | left (hi : i = .event (.unsubscribe p k.1) ∨ i = .event (.peerDisconnected p))
      (hlive : L'.session.isSome = L.session.isSome) (hsub : ¬ L'.Subscribed p)
      (hatt : L'.Attached p → L.Attached p ∧ ¬ L.Subscribed p)
  /-- The session is created. -/
  | created (hi : ∃ preamble state strategy, Creation i k L preamble state strategy)
      (hnone : L.session = none) (hhosted : L.subscribers.isSome)
      (hsubs : L'.subscribers = L.subscribers) (hlive : L'.session.isSome)
      (hatt : A.valid → (L'.Attached p ↔ L.Subscribed p))
  /-- It says that it is done. -/
  | done (hi : i.leaves p k) (hlive : L'.session.isSome = L.session.isSome)
      (hsubs : L'.subscribers = L.subscribers) (hatt : ¬ L'.Attached p)
  /-- The session is disposed. -/
  | disposed (hsweeps : A.sweeps) (hnone : L'.session = none) (hsubs : L'.subscribers = L.subscribers)

end Ledger

section Steps

variable [Crates] {A : Premises} {i : Input RsStrategy} {k : SessionKey} {L₀ L L' : Ledger}
  {p : PeerId}

omit [Crates] in
/-- An update of the session that keeps its peers keeps who is attached. -/
theorem Ledger.attached_map {f : Session RsStrategy → Session RsStrategy}
    (hf : ∀ s, p ∈ (f s).strategy.attachedPeers ↔ p ∈ s.strategy.attachedPeers)
    (h : L'.session = L.session.map f) : L'.Attached p ↔ L.Attached p := by
  unfold Ledger.Attached
  rw [h]
  cases L.session <;> simp [hf]

theorem Ledger.mem_attachPeer {q : PeerId} (s : Session RsStrategy) :
    p ∈ (s.attachPeer q).strategy.attachedPeers ↔ q = p ∨ p ∈ s.strategy.attachedPeers :=
  BTreeSet.mem_insert_iff _ _ _

theorem Ledger.mem_detachPeer {q : PeerId} (s : Session RsStrategy) (completed : Bool) :
    p ∈ (s.detachPeer q completed).strategy.attachedPeers
      ↔ q ≠ p ∧ p ∈ s.strategy.attachedPeers :=
  BTreeSet.mem_erase_iff _ _ _

omit [Crates] in
/-- An operation on the session that keeps its attached peers. -/
theorem Ledger.Reattached.of_op {f : Session RsStrategy → Session RsStrategy} {s : Session RsStrategy}
    (hs : L.session = some s) (hs' : L'.session = some (f s))
    (hf : ∀ s, (f s).strategy.attachedPeers = s.strategy.attachedPeers)
    (hsubs : L'.subscribers = L.subscribers) : L.Reattached A i k p L' := by
  refine .kept (by simp [hs, hs']) (Ledger.attached_map (f := f) (fun s => by rw [hf]) ?_) ?_ ?_
  · simp [hs, hs']
  · rw [Ledger.Subscribed, Ledger.Subscribed, hsubs]
  · exact fun h => .inl (hsubs ▸ h)

/-- **What one change makes of an attachment.** -/
theorem LedgerStep.reattached (h : LedgerStep A i k L L') (p : PeerId) : L.Reattached A i k p L' := by
  cases h with
  | submitted | openRefused | opened | routed | chunkAccepted | abandoned | parked | unparked
  | swept =>
    exact .kept rfl .rfl .rfl .inl
  | hosted hi hnew => exact .kept rfl .rfl (by simp [Ledger.Subscribed, hnew]) fun _ => .inr ⟨_, hi⟩
  | @enrolled q subs hi hsubs hnew =>
    -- the peer that is enrolled is ours, or another
    by_cases hq : q = p
    · subst hq
      -- ours joins, and is attached if the session is live
      refine .joined hi (by simp [Ledger.Subscribed, hsubs, hnew]) (by simp [hsubs]) (by simp)
        (by simp [Ledger.Subscribed]) fun hs => ?_
      obtain ⟨s, hs⟩ := Option.isSome_iff_exists.mp hs
      simp [Ledger.Attached, hs, Ledger.mem_attachPeer]
    · refine .kept (by simp) (Ledger.attached_map (fun s => ?_) rfl) ?_ (by simp [hsubs])
      · simp [Ledger.mem_attachPeer, hq]
      · simp [Ledger.Subscribed, hsubs, hq]
  | @unsubscribed q subs hi hsubs hq =>
    -- the peer that leaves is ours, or another
    by_cases hqp : q = p
    · subst hqp
      refine .left (.inl hi) (by simp) (by simp [Ledger.Subscribed]) fun ha => ?_
      obtain ⟨s, hs, hmem⟩ := (Option.any_eq_true _ _).mp ha
      obtain ⟨s₀, hs₀, rfl⟩ := Option.map_eq_some_iff.mp hs
      simp [Ledger.mem_detachPeer] at hmem
    · refine .kept (by simp) (Ledger.attached_map (fun s => ?_) rfl) ?_ (by simp [hsubs])
      · simp [Ledger.mem_detachPeer, hqp]
      · simp [Ledger.Subscribed, hsubs, hqp]
  | @disconnected q hi =>
    have hlive : (L.disconnect q).session.isSome = L.session.isSome := by
      simp only [Ledger.disconnect]
      split <;> simp
    by_cases hqp : q = p
    · subst hqp
      refine .left (.inr hi) hlive ?_ fun ha => ?_
      · cases hs : L.subscribers <;> simp [Ledger.Subscribed, Ledger.disconnect, hs]
      · simp only [Ledger.Attached, Ledger.disconnect] at ha
        split at ha
        · obtain ⟨s, hs, hmem⟩ := (Option.any_eq_true _ _).mp ha
          obtain ⟨s₀, hs₀, rfl⟩ := Option.map_eq_some_iff.mp hs
          simp [Ledger.mem_detachPeer] at hmem
        case isFalse hnone => exact ⟨ha, hnone⟩
    · refine .kept hlive ?_ ?_ fun hs => .inl (by simpa [Ledger.disconnect] using hs)
      · simp only [Ledger.Attached, Ledger.disconnect]
        split
        · cases L.session <;> simp [Ledger.mem_detachPeer, hqp]
        · exact .rfl
      · cases hs : L.subscribers <;> simp [Ledger.Subscribed, Ledger.disconnect, hs, hqp]
  | @created subs preamble state strategy now hnone hsubs hnew hbuilt =>
    refine .created ⟨_, _, _, hnew⟩ hnone (by simp [hsubs]) rfl rfl fun hvalid => ?_
    simp [Ledger.Attached, Ledger.Subscribed, hsubs, Session.mem_attachedPeers_attachEach,
      (hbuilt hvalid).fresh.attachedPeers]
  | polled hs => exact .of_op (f := fun s => s.poll.2) hs rfl (fun s => s.poll_attachedPeers) rfl
  | @chunkRefused s d rest err hs =>
    exact .of_op (f := (·.chunkSent d.peer d.handle false)) hs rfl
      (fun s => s.strategy.chunkSent_attachedPeers _ _ _) rfl
  | @took s idx data hi hs =>
    exact .of_op (f := fun s => (s.takeChunk idx data).2) hs rfl
      (fun s => s.takeChunk_attachedPeers idx data) rfl
  | decoded _ hs =>
    exact .of_op (f := fun s => s.decodeAndFinish.2) hs rfl
      (fun s => by rw [s.decodeAndFinish_strategy]) rfl
  | resolved =>
    refine .kept (by simp) (Ledger.attached_map (fun s => ?_) rfl) .rfl .inl
    exact iff_of_eq (congrArg (p ∈ ·) (s.strategy.chunkSent_attachedPeers _ _ _))
  | @detached s q completed hi hs =>
    by_cases hqp : q = p
    · subst hqp
      refine .done ?_ (by simp [hs]) rfl (by simp [Ledger.Attached, Ledger.mem_detachPeer])
      rcases hi with rfl | rfl <;> exact ⟨rfl, rfl⟩
    · refine .kept (by simp [hs]) (Ledger.attached_map (f := (·.detachPeer q completed))
        (fun s => ?_) (by simp [hs])) .rfl .inl
      simp [Ledger.mem_detachPeer, hqp]
  | disposed hsweeps => exact .disposed hsweeps rfl rfl

/-! ## Attachments within a step -/

/-- How the attachment of `p` stands in `L`, compared with the start `L₀` of the step: it is attached
if it subscribes, and either it or the session is new, or it was attached before. -/
structure Ledger.Tied (p : PeerId) (i : Input RsStrategy) (k : SessionKey) (L₀ L : Ledger) : Prop where
  live : L₀.session.isSome → L.session.isSome
  said : Engine.Announces i p k.1 → L₀.Subscribed p → L.Subscribed p
  attached : L.session.isSome →
    (L.Attached p ↔ L.Subscribed p ∧ (¬ L₀.Subscribed p ∨ L₀.session = none ∨ L₀.Attached p))

omit [Crates] in
/-- Before the first ledger step nothing has happened yet. -/
theorem Ledger.Tied.start (h : L.Attached p → L.Subscribed p) : Tied p i k L L where
  live := id
  said _ := id
  attached hs := by
    refine ⟨fun ha => ⟨h ha, .inr (.inr ha)⟩, fun ⟨hsub, hor⟩ => ?_⟩
    rcases hor with hnot | hnone | ha
    · exact absurd hsub hnot
    · rw [hnone] at hs
      cases hs
    · exact ha

omit [Crates] in
/-- What a change before the sweep keeps, unless the peer says it is done. -/
theorem Ledger.Reattached.tied (h : L.Reattached A i k p L') (hvalid : A.valid) (hsweeps : ¬ A.sweeps)
    (hleaves : ¬ i.leaves p k) (hL : Ledger.Tied p i k L₀ L) : Ledger.Tied p i k L₀ L' := by
  cases h with
  | kept hlive hatt hsub =>
    exact ⟨fun hs => hlive ▸ hL.live hs, fun hi hs => hsub.mpr (hL.said hi hs),
      fun hs => by rw [hatt, hsub, hL.attached (hlive ▸ hs)]⟩
  | joined hi hnew hhosted hlive hsub hatt =>
    refine ⟨fun hs => hlive ▸ hL.live hs, fun _ _ => hsub, fun hs => ?_⟩
    exact iff_of_true (hatt (hlive ▸ hs)) ⟨hsub, .inl fun hs₀ => hnew (hL.said hi hs₀)⟩
  | left hi hlive hsub hatt =>
    refine ⟨fun hs => hlive ▸ hL.live hs, fun hi' => ?_, fun hs => ?_⟩
    · rcases hi with rfl | rfl <;> exact hi'.elim
    · refine iff_of_false (fun ha => ?_) fun hb => hsub hb.1
      obtain ⟨ha, hnot⟩ := hatt ha
      exact hnot ((hL.attached (hlive ▸ hs)).mp ha).1
  | created hi hnone hhosted hsubs hlive hatt =>
    have hold : L₀.session = none := by
      rw [← Option.not_isSome_iff_eq_none]
      intro hs
      have hlive' := hL.live hs
      rw [hnone] at hlive'
      cases hlive'
    have hsub : L'.Subscribed p ↔ L.Subscribed p := by
      rw [Ledger.Subscribed, Ledger.Subscribed, hsubs]
    refine ⟨fun _ => hlive, fun hi hs => hsub.mpr (hL.said hi hs), fun _ => ?_⟩
    simp [hatt hvalid, hsub, hold]
  | done hi => exact absurd hi hleaves
  | disposed hyes => exact absurd hyes hsweeps

omit [Crates] in
/-- After the input is handled, a session that is still there keeps its attachments. -/
theorem Ledger.Reattached.settled (h : L.Reattached A .recv k p L') :
    (L'.session.isSome → L.session.isSome ∧ (L'.Attached p ↔ L.Attached p))
      ∧ (L'.Subscribed p ↔ L.Subscribed p) := by
  cases h with
  | kept hlive hatt hsub => exact ⟨fun hs => ⟨hlive ▸ hs, hatt⟩, hsub⟩
  | joined hi => exact hi.elim
  | left hi => rcases hi with hi | hi <;> cases hi
  | created hi =>
    obtain ⟨_, _, _, hi⟩ := hi
    cases hi <;> contradiction
  | done hi => exact hi.elim
  | disposed _ hnone hsubs =>
    refine ⟨fun hs => ?_, by rw [Ledger.Subscribed, Ledger.Subscribed, hsubs]⟩
    rw [hnone] at hs
    cases hs

/-- No chunk of the session of `k` was submitted to `p` after the first `n` messages. -/
def Ledger.NoChunkTo (p : PeerId) (k : SessionKey) (n : Nat) (L : Ledger) : Prop :=
  ∀ sent ∈ L.log.drop n, ∀ idx payload token, sent.msg ≠ .chunk p k.1 k.2 idx payload token

/-- A chunk goes to an attached peer. -/
theorem LedgerStep.noChunkTo {n : Nat} (h : LedgerStep A i k L L') (hatt : ¬ L.Attached p)
    (hL : L.NoChunkTo p k n) : L'.NoChunkTo p k n := by
  have hadd : ∀ {sent : Sent} {L' : Ledger}, L'.log = L.log ++ [sent] →
      (∀ idx payload token, sent.msg ≠ .chunk p k.1 k.2 idx payload token) → L'.NoChunkTo p k n := by
    intro sent L' hlog hsent x hx
    rw [hlog, List.drop_append] at hx
    rcases List.mem_append.mp hx with hx | hx
    · exact hL x hx
    · cases List.mem_singleton.mp (List.mem_of_mem_drop hx)
      exact hsent
  have hother : ∀ {s : Session RsStrategy} {d : ChunkDispatch Nat}, L.session = some s → s.Backs d →
      d.peer ≠ p := by
    rintro s d hs hd rfl
    exact hatt (by simp [Ledger.Attached, hs, hd.attached])
  cases h with
  | hosted | enrolled | unsubscribed | disconnected | created | polled | abandoned | took | decoded
  | resolved | detached | parked | unparked | disposed | swept => exact hL
  | submitted hkey =>
    refine hadd rfl fun idx payload token hmsg => hkey ?_
    rw [hmsg]
    rfl
  | openRefused | opened | routed => exact hadd rfl fun _ _ _ => nofun
  | chunkAccepted hs hd | chunkRefused hs hd =>
    refine hadd rfl fun idx payload token hmsg => ?_
    cases hmsg
    exact hother hs hd rfl

/-- No operation but a result adds a peer the session does not have. -/
theorem Session.contained_kept : Session.Kept fun s => s.strategy.Contained where
  built h := h.fresh.contained
  attach p hs := hs.attachPeer p
  detach p completed hs := hs.detachPeer p completed
  poll hs := Session.poll_contained _ hs
  sent p handle ok hown hs := by
    refine hs.chunkSent (fun hfly => ?_) ok
    obtain ⟨v, hv⟩ := Option.isSome_iff_exists.mp hfly
    exact hown v hv ▸ hs.flying handle v hv
  take {s} idx data hs := by
    obtain ⟨chunks, hchunks⟩ := s.takeChunk_chunks idx data
    rw [hchunks]
    exact ⟨hs.flying, hs.planned⟩
  finish {s} hs := by
    rwa [s.decodeAndFinish_strategy]

/-- **Flights and planner states stay with attached peers**, whatever happens but a send result. -/
theorem LedgerStep.contained (h : LedgerStep A i k L L') (hvalid : A.valid)
    (hresult : ∀ peer token ok, i ≠ .event (.chunkSendResult peer k.1 k.2 token ok))
    (hL : ∀ s, L.session = some s → s.strategy.Contained) :
    ∀ s, L'.session = some s → s.strategy.Contained :=
  h.kept Session.contained_kept hvalid hresult hL

end Steps

/-! ## Steps of the engine -/

namespace Engine

section Steps

variable [Crates] {e : Engine RsStrategy Wire} {i : Input RsStrategy} {k : SessionKey} {p : PeerId}

/-- The decoding at the end of a step attaches and enrols nobody. -/
theorem afterDecode_settled (e : Engine RsStrategy Wire) (i : Input RsStrategy) (k : SessionKey)
    (p : PeerId) :
    (((e.step i).2.ledger k).session.isSome → ((e.beforeDecode i).2.ledger k).session.isSome
        ∧ (((e.step i).2.ledger k).Attached p ↔ ((e.beforeDecode i).2.ledger k).Attached p))
      ∧ (((e.step i).2.ledger k).Subscribed p ↔ ((e.beforeDecode i).2.ledger k).Subscribed p) := by
  refine (afterDecode_ledger i e k).induct
    (Q := fun L => (L.session.isSome → ((e.beforeDecode i).2.ledger k).session.isSome
        ∧ (L.Attached p ↔ ((e.beforeDecode i).2.ledger k).Attached p))
      ∧ (L.Subscribed p ↔ ((e.beforeDecode i).2.ledger k).Subscribed p))
    (fun hstep hL => ?_) ⟨fun hs => ⟨hs, .rfl⟩, .rfl⟩
  obtain ⟨hsession, hsubs⟩ := (hstep.reattached p).settled
  refine ⟨fun hs => ?_, hsubs.trans hL.2⟩
  obtain ⟨hlive, hatt⟩ := hsession hs
  exact ⟨(hL.1 hlive).1, hatt.trans (hL.1 hlive).2⟩

/-- **What one step makes of an attachment**: unless the peer says it is done, it is attached if it
subscribes, and either it or the session is new, or it was attached before. -/
theorem step_attached (hi : i.Valid) (he : e.RelayFactories) (hleaves : ¬ i.leaves p k)
    (hold : (e.ledger k).Attached p → (e.ledger k).Subscribed p)
    (hlive : ((e.step i).2.ledger k).session.isSome) :
    ((e.step i).2.ledger k).Attached p ↔ ((e.step i).2.ledger k).Subscribed p
      ∧ (¬ (e.ledger k).Subscribed p ∨ (e.ledger k).session = none ∨ (e.ledger k).Attached p) := by
  obtain ⟨hsession, hsubs⟩ := e.afterDecode_settled i k p
  obtain ⟨hlive', hatt⟩ := hsession hlive
  have htied := (beforeDecode_ledger (A := ⟨fun _ => True, True, True, True⟩) i e k
    (fun _ => ⟨hi, he⟩) fun _ _ _ _ _ _ => trivial).induct
    (Q := fun L => Ledger.Tied p i k (e.ledger k) L)
    (fun hstep hL => (hstep.reattached p).tied trivial id hleaves hL) (.start hold)
  rw [hatt, hsubs, htied.attached hlive']

/-- A peer that says it is done with a session is detached from it, and that is all. -/
theorem beforeDecode_leaves (hleaves : i.leaves p k) :
    ¬ ((e.beforeDecode i).2.ledger k).Attached p ∧ ((e.beforeDecode i).2.ledger k).log = e.net.log := by
  unfold Input.leaves at hleaves
  split at hleaves
  case h_1 peer c m | h_2 peer c m =>
    obtain ⟨rfl, rfl⟩ := hleaves
    simp only [beforeDecode, handleEvent, detachSessionPeer, ledger_modifySession, if_pos,
      Ledger.Attached]
    refine ⟨?_, rfl⟩
    cases (e.ledger (c, m)).session <;> simp [Ledger.mem_detachPeer]
  case h_3 => exact hleaves.elim

/-- A peer that leaves is not attached after the step. -/
theorem step_leaves (hleaves : i.leaves p k) : ¬ ((e.step i).2.ledger k).Attached p := by
  intro hatt
  have hlive : ((e.step i).2.ledger k).session.isSome := Option.isSome_of_any hatt
  exact (beforeDecode_leaves hleaves).1 ((((e.afterDecode_settled i k p).1 hlive).2).mp hatt)

end Steps

/-! ## Attachments over a run -/

section Runs

variable [Crates] {e : Engine RsStrategy Wire} {inputs : List (Input RsStrategy)}
  {i : Input RsStrategy} {c : ChannelId} {m : MessageId} {p : PeerId}

/-- The step makes peer `p` a subscriber of the channel. -/
def Inserts (p : PeerId) (c : ChannelId) (e : Engine RsStrategy Wire) (i : Input RsStrategy) : Prop :=
  p ∉ e.subscribersOf c ∧ p ∈ (e.step i).2.subscribersOf c

/-- The step creates the session. -/
def Creates (c : ChannelId) (m : MessageId) (e : Engine RsStrategy Wire) (i : Input RsStrategy) :
    Prop :=
  e.session? c m = none ∧ ((e.step i).2.session? c m).isSome

/-- Peer `p` said it was done with the session, and since then neither `p` became a subscriber again
nor the session was created again. -/
def LeftSince (p : PeerId) (c : ChannelId) (m : MessageId) (e : Engine RsStrategy Wire)
    (inputs : List (Input RsStrategy)) : Prop :=
  ∃ before i after, inputs = before ++ i :: after ∧ i.leaves p (c, m)
    ∧ ∀ mid j rest, after = mid ++ j :: rest →
      ¬ Inserts p c (e.run (before ++ i :: mid)) j ∧ ¬ Creates c m (e.run (before ++ i :: mid)) j

/-- Who has left since, after one more input: it is the input that tells the peer left, or the peer had left
before and neither it nor the session is new. -/
theorem leftSince_concat :
    LeftSince p c m e (inputs ++ [i]) ↔ i.leaves p (c, m)
      ∨ LeftSince p c m e inputs ∧ ¬ Inserts p c (e.run inputs) i ∧ ¬ Creates c m (e.run inputs) i := by
  constructor
  · rintro ⟨before, j, after, heq, hleaves, hafter⟩
    rcases List.eq_nil_or_concat after with rfl | ⟨mid, x, rfl⟩
    · obtain ⟨-, hx⟩ := List.append_inj' heq rfl
      cases hx
      exact .inl hleaves
    · rw [List.concat_eq_append, ← List.cons_append, ← List.append_assoc] at heq
      obtain ⟨rfl, hx⟩ := List.append_inj' heq rfl
      cases hx
      refine .inr ⟨⟨before, j, mid, rfl, hleaves, fun mid' k rest hmid => ?_⟩, hafter mid i [] ?_⟩
      · exact hafter mid' k (rest ++ [i]) (by simp [hmid])
      · simp
  · rintro (hleaves | ⟨⟨before, j, after, rfl, hleaves, hafter⟩, hins, hcre⟩)
    · exact ⟨inputs, i, [], rfl, hleaves, by simp⟩
    · refine ⟨before, j, after ++ [i], by simp, hleaves, fun mid k rest heq => ?_⟩
      rcases List.eq_nil_or_concat rest with rfl | ⟨rest', x, rfl⟩
      · obtain ⟨rfl, hx⟩ := List.append_inj' heq rfl
        cases hx
        exact ⟨hins, hcre⟩
      · rw [List.concat_eq_append, ← List.cons_append, ← List.append_assoc] at heq
        obtain ⟨rfl, hx⟩ := List.append_inj' heq rfl
        exact hafter mid k rest' rfl

/-- A live session's attached peers are the subscribers that have not said they are done. -/
def AttachedRight (e : Engine RsStrategy Wire) (inputs : List (Input RsStrategy)) : Prop :=
  ∀ c m s p, (e.run inputs).session? c m = some s →
    (p ∈ s.strategy.attachedPeers
      ↔ p ∈ (e.run inputs).subscribersOf c ∧ ¬ LeftSince p c m e inputs)

omit [Crates] in
/-- The ledger's subscribers are the channel's. -/
theorem ledger_subscribed {e : Engine RsStrategy Wire} :
    (e.ledger (c, m)).Subscribed p ↔ p ∈ e.subscribersOf c :=
  mem_subscribersOf.symm

omit [Crates] in
/-- The ledger's attached peers are the session's. -/
theorem ledger_attached {e : Engine RsStrategy Wire} {s : Session RsStrategy}
    (hs : e.session? c m = some s) :
    (e.ledger (c, m)).Attached p ↔ p ∈ s.strategy.attachedPeers := by
  unfold Ledger.Attached
  rw [show (e.ledger (c, m)).session = some s from hs]
  simp

/-- An attached peer is a subscriber. -/
theorem AttachedRight.subscribed (h : AttachedRight e inputs)
    (hatt : ((e.run inputs).ledger (c, m)).Attached p) :
    ((e.run inputs).ledger (c, m)).Subscribed p := by
  obtain ⟨s, hs, hp⟩ := (Option.any_eq_true _ _).mp hatt
  exact ledger_subscribed.mpr ((h c m s p hs).mp (of_decide_eq_true hp)).1

/-- **The law of attachments, one step on.**  A step attaches a peer that it enrols, or to a session that it
creates, and detaches a peer that it says has left. -/
theorem AttachedRight.concat (h : AttachedRight e inputs) (hi : i.Valid)
    (he : (e.run inputs).RelayFactories) : AttachedRight e (inputs ++ [i]) := by
  intro c m s p hs
  rw [leftSince_concat]
  rw [run_concat] at hs ⊢
  by_cases hleaves : i.leaves p (c, m)
  · have hnot := step_leaves (e := e.run inputs) hleaves
    rw [ledger_attached hs] at hnot
    simp [hnot, hleaves]
  · have hstep := step_attached hi he hleaves h.subscribed
      (show (((e.run inputs).step i).2.ledger (c, m)).session.isSome from
        Option.isSome_iff_exists.mpr ⟨s, hs⟩)
    rw [ledger_attached hs, ledger_subscribed, ledger_subscribed] at hstep
    have hold : ∀ s₀, (e.run inputs).session? c m = some s₀ →
        (((e.run inputs).ledger (c, m)).Attached p
          ↔ p ∈ (e.run inputs).subscribersOf c ∧ ¬ LeftSince p c m e inputs) := fun s₀ hs₀ => by
      rw [ledger_attached hs₀, h c m s₀ p hs₀]
    have hnone : ((e.run inputs).ledger (c, m)).session = (e.run inputs).session? c m := rfl
    rw [hstep, hnone]
    unfold Inserts Creates
    cases hs₀ : (e.run inputs).session? c m with
    | none => simp [hleaves, hs]
    | some s₀ =>
      rw [hold s₀ hs₀]
      simp only [hleaves, false_or, reduceCtorEq, false_and, not_false_eq_true, and_true]
      tauto

/-- A peer that is done and subscribed is not attached to a live session by a step that handles its
input, nor sent a chunk of it. -/
theorem beforeDecode_noChunkTo {k : SessionKey} {n : Nat} (hi : i.Valid) (he : e.RelayFactories)
    (hlive : (e.ledger k).session.isSome) (hsub : (e.ledger k).Subscribed p)
    (hatt : ¬ (e.ledger k).Attached p) (hlog : (e.ledger k).NoChunkTo p k n) :
    ¬ ((e.beforeDecode i).2.ledger k).Attached p
      ∧ ((e.beforeDecode i).2.ledger k).NoChunkTo p k n := by
  by_cases hleaves : i.leaves p k
  · obtain ⟨hnot, hsame⟩ := beforeDecode_leaves (e := e) hleaves
    refine ⟨hnot, ?_⟩
    unfold Ledger.NoChunkTo
    rw [hsame]
    exact hlog
  · have hdetached : ∀ {L : Ledger}, Ledger.Tied p i k (e.ledger k) L → ¬ L.Attached p := by
      intro L hL hp
      have hor := ((hL.attached (Option.isSome_of_any hp)).mp hp).2
      rcases hor with hnot | hnone | hp
      · exact hnot hsub
      · rw [hnone] at hlive
        cases hlive
      · exact hatt hp
    obtain ⟨htied, hlog⟩ := (beforeDecode_ledger (A := ⟨fun _ => True, True, True, True⟩) i e k
      (fun _ => ⟨hi, he⟩) fun _ _ _ _ _ _ => trivial).induct
      (Q := fun L => Ledger.Tied p i k (e.ledger k) L ∧ L.NoChunkTo p k n)
      (fun hstep hL => ⟨(hstep.reattached p).tied trivial id hleaves hL.1, hstep.noChunkTo (hdetached hL.1) hL.2⟩)
      ⟨.start fun h => absurd h hatt, hlog⟩
    exact ⟨hdetached htied, hlog⟩

/-- What follows the handling of the input sends a peer that is not attached no chunk. -/
theorem afterDecode_noChunkTo {k : SessionKey} {n : Nat}
    (hatt : ¬ ((e.beforeDecode i).2.ledger k).Attached p)
    (hlog : ((e.beforeDecode i).2.ledger k).NoChunkTo p k n) :
    ¬ ((e.step i).2.ledger k).Attached p ∧ ((e.step i).2.ledger k).NoChunkTo p k n := by
  refine (afterDecode_ledger i e k).induct (Q := fun L => ¬ L.Attached p ∧ L.NoChunkTo p k n)
    (fun hstep hL => ⟨fun hp => ?_, hstep.noChunkTo hL.1 hL.2⟩) ⟨hatt, hlog⟩
  exact hL.1 ((((hstep.reattached p).settled.1 (Option.isSome_of_any hp)).2).mp hp)

/-- Peer `p` is done with the session, and while both stay it is sent no chunk of it. -/
def SentNoMore (e : Engine RsStrategy Wire) (inputs : List (Input RsStrategy)) : Prop :=
  ∀ pre w p c m, inputs = pre ++ .event (.peerReconstructed p c m) :: w →
    (∀ mid j rest, w = mid ++ j :: rest →
      ((e.run (pre ++ .event (.peerReconstructed p c m) :: mid)).session? c m).isSome
        ∧ p ∈ (e.run (pre ++ .event (.peerReconstructed p c m) :: mid)).subscribersOf c) →
    ∀ sent ∈ (e.run inputs).net.log.drop
        (e.run (pre ++ [.event (.peerReconstructed p c m)])).net.log.length,
      ∀ idx payload token, sent.msg ≠ .chunk p c m idx payload token

/-- By induction on the run: nothing is dispatched to a peer from where it left. -/
theorem run_sentNoMore (he : e.RelayFactories) (hvalid : ∀ i ∈ inputs, i.Valid) :
    e.SentNoMore inputs := by
  rintro pre w p c m rfl hstays
  have hfactories : ∀ l, (∀ i ∈ l, i.Valid) → (e.run l).RelayFactories := fun l hl =>
    run_induct (P := RelayFactories) (fun e i hi he => he.step (hl i hi)) he
  suffices h : ¬ ((e.run (pre ++ .event (.peerReconstructed p c m) :: w)).ledger (c, m)).Attached p
      ∧ ((e.run (pre ++ .event (.peerReconstructed p c m) :: w)).ledger (c, m)).NoChunkTo p (c, m)
        (e.run (pre ++ [.event (.peerReconstructed p c m)])).net.log.length from h.2
  induction w using List.reverseRecOn with
  | nil =>
    refine ⟨?_, fun sent hsent => by simp [Engine.ledger] at hsent⟩
    rw [run_concat]
    exact step_leaves ⟨rfl, rfl⟩
  | append_singleton w j ih =>
    have hvalid' : ∀ i ∈ pre ++ .event (.peerReconstructed p c m) :: w, i.Valid := fun i hi =>
      hvalid i (by
        rw [← List.cons_append, ← List.append_assoc]
        exact List.mem_append_left _ hi)
    obtain ⟨hatt, hlog⟩ := ih hvalid' fun mid x rest hw => hstays mid x (rest ++ [j]) (by simp [hw])
    obtain ⟨hlive, hsub⟩ := hstays w j [] rfl
    rw [← List.cons_append, ← List.append_assoc, run_concat]
    obtain ⟨hatt, hlog⟩ := beforeDecode_noChunkTo (k := (c, m)) (hvalid j (by simp))
      (hfactories _ hvalid') hlive (ledger_subscribed.mpr hsub) hatt hlog
    exact afterDecode_noChunkTo hatt hlog

/-! ## Flights and planner states -/

/-- A send result for a flight of a live session names a peer attached to it. -/
def NamesAttached (e : Engine RsStrategy Wire) : Input RsStrategy → Prop
  | .event (.chunkSendResult peer c m token _) => (c, m, token) ∈ e.pendingSends →
    ∀ s ∈ e.session? c m, token ∈ s.strategy.inFlight → peer ∈ s.strategy.attachedPeers
  | _ => True

instance (e : Engine RsStrategy Wire) : DecidablePred e.NamesAttached := fun i =>
  match i with
  | .event (.chunkSendResult peer c m token _) =>
    inferInstanceAs (Decidable ((c, m, token) ∈ e.pendingSends →
      ∀ s ∈ e.session? c m, token ∈ s.strategy.inFlight → peer ∈ s.strategy.attachedPeers))
  | .subscribe .. | .connect _ | .publish .. | .recv | .event (.handshake ..)
  | .event (.subscribe ..) | .event (.unsubscribe ..) | .event (.sessionOpen ..)
  | .event (.routingUpdate ..) | .event (.chunk ..) | .event (.peerDisconnected _)
  | .event (.peerConnected _) | .event (.peerReconstructed ..) | .event (.sessionClosed ..) =>
    .isTrue trivial

/-- A step on a send result is the outcome fed back, if it was pending, and then nothing the input has
a part in. -/
theorem chunkSendResult_acts {D : Terms Wire} (hsweeps : D.sweeps)
    (e : Engine RsStrategy Wire) (peer : PeerId) (c : ChannelId) (m : MessageId)
    (token : DispatchHandle) (ok : Bool)
    (hD : ∀ call ∈ e.drainCalls (.event (.chunkSendResult peer c m token ok)), D.drains call.1 call.2) :
    Acts .recv D
      (if (c, m, token) ∈ e.pendingSends then e.afterResolve peer c m token ok else e)
      (e.step (.event (.chunkSendResult peer c m token ok))).2 := by
  show Acts .recv D _ (e.resolveChunkSend peer c m token ok).maybeRunCleanup
  unfold resolveChunkSend
  simp only [drainCalls] at hD
  split
  case isTrue hpending =>
    rw [if_pos hpending] at hD
    have hdrain : Acts .recv D (e.afterResolve peer c m token ok) _ :=
      .single (.drained (hD _ List.mem_cons_self))
    exact hdrain.trans (maybeRunCleanup_acts hsweeps _)
  case isFalse => exact maybeRunCleanup_acts hsweeps e

/-- **What every operation preserves, a step preserves**: its polls are of sessions with `P`, and if it
feeds an outcome back, that is preserved too. -/
theorem step_keptWhile {P Q : Session RsStrategy → Prop} (hQ : Session.KeptWhile P Q) (hi : i.Valid)
    (he : e.RelayFactories) (hpolls : e.StepPolls P i)
    (hresult : ∀ peer c m token ok, i = .event (.chunkSendResult peer c m token ok) →
      (c, m, token) ∈ e.pendingSends → ∀ s ∈ e.session? c m, Q s → Q (s.chunkSent peer token ok))
    (hold : ∀ k s, (e.ledger k).session = some s → Q s) (k : SessionKey) :
    ∀ s, ((e.step i).2.ledger k).session = some s → Q s := by
  -- a result for this session is handled by hand, up to where it landed; the rest of the step is ledger
  -- steps
  by_cases hresult' : ∃ peer token ok, i = .event (.chunkSendResult peer k.1 k.2 token ok)
  · obtain ⟨peer, token, ok, rfl⟩ := hresult'
    have hacts := chunkSendResult_acts (D := premisedTerms ⟨P, True, True, True⟩)
      trivial e peer k.1 k.2 token ok hpolls
    have hstart : (if (k.1, k.2, token) ∈ e.pendingSends then e.afterResolve peer k.1 k.2 token ok
        else e).RelayFactories
        ∧ ∀ s, ((if (k.1, k.2, token) ∈ e.pendingSends then e.afterResolve peer k.1 k.2 token ok
          else e).ledger k).session = some s → Q s := by
      split
      case isTrue hpending =>
        refine ⟨Act.relayFactories (D := Terms.any) (.resolved rfl hpending)
          (hostsRelays_of_valid hi) he, fun s hs => ?_⟩
        unfold afterResolve at hs
        rw [ledger_modifySession, if_pos rfl] at hs
        obtain ⟨s₀, hs₀, rfl⟩ := Option.map_eq_some_iff.mp hs
        exact hresult peer k.1 k.2 token ok rfl hpending s₀ hs₀ (hold k s₀ hs₀)
      -- a result for nothing that is pending
      case isFalse => exact ⟨he, hold k⟩
    exact (Acts.ledger hacts (fun _ => ⟨trivial, hstart.1⟩) k).induct
      (Q := fun L => ∀ s, L.session = some s → Q s)
      (fun hstep => hstep.keptWhile hQ trivial fun _ _ _ => nofun) hstart.2
  · refine (step_ledger (A := ⟨P, True, True, True⟩) i e k (fun _ => ⟨hi, he⟩) hpolls trivial trivial).induct
      (Q := fun L => ∀ s, L.session = some s → Q s)
      (fun hstep => hstep.keptWhile hQ trivial fun peer token ok heq => ?_) (hold k)
    exact hresult' ⟨peer, token, ok, heq⟩

/-- A step whose results name attached peers adds no others to the planner. -/
theorem step_contained (hi : i.Valid) (he : e.RelayFactories) (hnames : e.NamesAttached i)
    (hold : ∀ k s, (e.ledger k).session = some s → s.strategy.Contained) (k : SessionKey) :
    ∀ s, ((e.step i).2.ledger k).session = some s → s.strategy.Contained := by
  refine step_keptWhile (Session.contained_kept.keptWhile fun _ => True) hi he
    (fun _ _ _ _ _ _ => trivial) ?_ hold k
  rintro peer c m token ok rfl hpending s hs hcontained
  exact hcontained.chunkSent
    (fun hfly => hnames hpending s hs (ExtTreeMap.mem_iff_isSome_getElem?.mpr hfly)) ok

/-- The law of attachments holds of every run. -/
theorem run_attachedRight (localPeer : PeerId) (net : Wire) (delivered : Sink) (config : EngineConfig)
    (clock : Clock) {inputs : List (Input RsStrategy)} (hvalid : ∀ i ∈ inputs, i.Valid) :
    AttachedRight (withConfig localPeer net delivered config clock) inputs := by
  induction inputs using List.reverseRecOn with
  | nil =>
    intro c m s p hs
    simp [run, withConfig, session?] at hs
  | append_singleton inputs i ih =>
    have hinit : ∀ j ∈ inputs, j.Valid := fun j hj => hvalid j (List.mem_append_left _ hj)
    refine (ih hinit).concat (hvalid i (by simp)) ?_
    exact run_induct (P := RelayFactories) (fun e j hj he => he.step (hinit j hj))
      (relayFactories_withConfig localPeer net delivered config clock)

/-- **Attachment tracks subscription** in every run of valid inputs, and a peer that is done is sent no
chunk while it stays subscribed; flights and planner states are of attached peers as long as every
send result for a flight names an attached peer. -/
theorem run_attachments (localPeer : PeerId) (net : Wire) (delivered : Sink) (config : EngineConfig)
    (clock : Clock) (inputs : List (Input RsStrategy)) (hvalid : ∀ i ∈ inputs, i.Valid) :
    AttachedRight (withConfig localPeer net delivered config clock) inputs
    ∧ SentNoMore (withConfig localPeer net delivered config clock) inputs
    ∧ ((withConfig localPeer net delivered config clock).EachStep NamesAttached inputs →
      ∀ c m s, ((withConfig localPeer net delivered config clock).run inputs).session? c m = some s →
        s.strategy.Contained) := by
  have he := relayFactories_withConfig localPeer net delivered config clock
  refine ⟨run_attachedRight localPeer net delivered config clock hvalid, run_sentNoMore he hvalid,
    fun hnames c m s hs => ?_⟩
  refine (hnames.run (Q := fun e => e.RelayFactories
    ∧ ∀ k s, (e.ledger k).session = some s → s.strategy.Contained)
    (fun e i hi hstep hold => ⟨hold.1.step (hvalid i hi), fun k => ?_⟩) ⟨he, fun k => ?_⟩).2 (c, m) s hs
  · exact step_contained (hvalid i hi) hold.1 hstep hold.2 k
  · rw [ledger_withConfig]
    simp

end Runs

section OneShard

attribute [local instance] oneShard

/-- A message is published to a peer, which acknowledges one shard and is done. -/
def publishUntilDone : List (Input RsStrategy) :=
  [.subscribe "c" (rsRelayFactory {} fun _ => 7), .event (.subscribe 1 "c"),
    .publish "c" "m" OneShard.origin (OneShard.preambleBytes OneShard.preamble),
    .event (.chunkSendResult 1 "c" "m" 0 true), .event (.peerReconstructed 1 "c" "m")]

theorem publishUntilDone_valid : ∀ i ∈ publishUntilDone, i.Valid := by
  simp only [publishUntilDone, List.mem_cons, List.not_mem_nil, or_false]
  rintro i (rfl | rfl | rfl | rfl | rfl)
  · exact ⟨_, _, rfl⟩
  · trivial
  · exact ⟨_, _, _, OneShard.newOrigin_eq⟩
  · trivial
  · trivial

/-- A run with all its results, and every condition met. -/
theorem run_attachments_done :
    (∀ i ∈ publishUntilDone, i.Valid)
    ∧ AttachedRight (nodeTicking second) publishUntilDone
    ∧ (nodeTicking second).EachStep NamesAttached publishUntilDone
    ∧ ∀ c m s, ((nodeTicking second).run publishUntilDone).session? c m = some s →
      s.strategy.Contained := by
  have hnames : (nodeTicking second).EachStep NamesAttached publishUntilDone := by decide +kernel
  have hrun := run_attachments 0 ⟨fun _ _ => .ok (), []⟩ ⟨8, [], false⟩ {} ⟨fun n => n * second, 0⟩
    publishUntilDone publishUntilDone_valid
  exact ⟨publishUntilDone_valid, hrun.1, hnames, hrun.2.2 hnames⟩

/-- A message is published to peer 1 and disposed, and published again to peer 2; the outcome of the
first dispatch of the first life comes in last. -/
def publishAgain : List (Input RsStrategy) :=
  [.subscribe "c" (rsRelayFactory {} fun _ => 7), .event (.subscribe 1 "c"),
    .publish "c" "m" OneShard.origin (OneShard.preambleBytes OneShard.preamble),
    .event (.routingUpdate 1 "c" "m" []), .event (.routingUpdate 1 "c" "m" []),
    .event (.unsubscribe 1 "c"), .event (.subscribe 2 "c"),
    .publish "c" "m" OneShard.origin (OneShard.preambleBytes OneShard.preamble),
    .event (.chunkSendResult 1 "c" "m" 0 true)]

theorem publishAgain_valid : ∀ i ∈ publishAgain, i.Valid := by
  simp only [publishAgain, List.mem_cons, List.not_mem_nil, or_false]
  rintro i (rfl | rfl | rfl | rfl | rfl | rfl | rfl | rfl | rfl)
  · exact ⟨_, _, rfl⟩
  · trivial
  · exact ⟨_, _, _, OneShard.newOrigin_eq⟩
  · trivial
  · trivial
  · trivial
  · trivial
  · exact ⟨_, _, _, OneShard.newOrigin_eq⟩
  · trivial

/-- The late outcome makes the planner keep a state for peer 1, which is not attached. -/
theorem run_not_contained :
    ¬ ∀ c m s, ((nodeTicking (200 * second)).run publishAgain).session? c m = some s →
      s.strategy.Contained := by
  intro h
  have hstranger : (((nodeTicking (200 * second)).run publishAgain).session? "c" "m").any (fun s =>
      1 ∈ s.strategy.planner.peers && !decide (1 ∈ s.strategy.attachedPeers)) = true := by
    decide +kernel
  obtain ⟨s, hs, hprops⟩ := (Option.any_eq_true _ _).mp hstranger
  simp only [Bool.and_eq_true, decide_eq_true_eq, Bool.not_eq_true', decide_eq_false_iff_not] at hprops
  exact hprops.2 ((h "c" "m" s hs).planned 1 hprops.1)

end OneShard

end Engine

end Ethp2p
