/-
# Ethp2p.Wakeups — who drains a stalled session again.

A drain that meets a refusal gives up.  What is still to be sent then waits for the next drain of the
session, and the code counts on the outcome of one of its own chunks to bring it: "there is always at least
one, since the queue must fill before it rejects".  A peer's queue is shared by all sessions and the control
frames, so it can be filled by others, and then nothing of this session is pending.

`Awake` is what is wanted: an origin session that owes a shard to an attached peer has a chunk pending.
Drains preserve it, and a drain establishes it that starts with a chunk pending, has all its sends accepted,
or gets one chunk through (`Fruitful`).  So it can be lost only where a step makes something to send, or
takes pending chunks away, without such a drain; `Rouses` says when that does not happen.
-/
import Ethp2p.Attachments
import Ethp2p.Drains
import Ethp2p.Failures
import Ethp2p.Strategy.Rs.Havelists
import Ethp2p.Strategy.Rs.Origin
import Ethp2p.Subscriptions

namespace Ethp2p

open Std

/-! ## What an origin owes -/

namespace RsStrategy

variable {s s' : RsStrategy} {p q : PeerId} {idx : Nat}

/-- A shard is neither in flight to an attached peer nor acknowledged as sent to it. -/
structure Owes (s : RsStrategy) (p : PeerId) (idx : Nat) : Prop where
  attached : p ∈ s.attachedPeers
  in_range : idx < s.totalShards
  not_flying : idx ∉ s.planner.inFlightTo p
  not_had : ¬ s.planner.Had p idx

/-- What is owed after a peer was detached was owed before. -/
theorem Owes.of_detachPeer {completed : Bool} (h : (s.detachPeer q completed).Owes p idx) :
    s.Owes p idx := by
  obtain ⟨hne, hattached⟩ := (BTreeSet.mem_erase_iff _ _ _).mp h.attached
  have hstate : (s.planner.removePeer q).peerState p = s.planner.peerState p := by
    rw [(s.planner.removePeer_spec q).2.2, if_neg hne]
  refine ⟨hattached, h.in_range, fun hflying => h.not_flying ?_, fun hhad => h.not_had ?_⟩
  · show idx ∈ ((s.planner.removePeer q).peerState p).inFlight
    rwa [hstate]
  · exact hhad.congr (by rw [← hstate]; rfl)

/-- What is owed after the routing was polled was owed before. -/
theorem Owes.of_pollRouting {force : Bool} (h : (s.pollRouting force).2.Owes p idx) : s.Owes p idx := by
  rcases s.pollRouting_cases force with hr | hr <;> rw [hr] at h
  · exact h
  · exact ⟨h.attached, h.in_range, h.not_flying, h.not_had⟩

/-- What is owed after a poll was owed before it. -/
theorem Owes.of_pollChunks [Crates] (h : s.pollChunks.2.Owes p idx) : s.Owes p idx where
  attached := s.pollChunks_spec.attachedPeers_eq ▸ h.attached
  in_range := s.pollChunks_spec.sameStore.totalShards_eq ▸ h.in_range
  not_flying hflying := h.not_flying (pollPeers_flying _ hflying)
  not_had hhad := h.not_had (had_applyOp hhad .pollChunks fun _ => nofun)

/-- What a poll dispatches was owed. -/
theorem owes_of_mem_pollChunks (h : s.Pollable) {d : ChunkDispatch Nat} (hd : d ∈ s.pollChunks.1) :
    s.Owes d.peer d.chunkId where
  attached := pollChunks_peer_mem hd
  in_range := h.numShards_eq ▸ chunkId_lt_of_mem_pollPeers h.heap hd
  not_flying := not_flying_of_mem_pollPeers hd
  not_had := not_had_of_mem_pollChunks hd

/-- After an empty poll of an origin nothing is owed. -/
theorem not_owes_of_poll_nil [Crates] {shards : List Bytes} (hwhole : s.Whole shards)
    (hmode : s.planner.mode = .origin) (hpollable : s.Pollable) (hnil : s.pollChunks.1 = []) :
    ¬ s.pollChunks.2.Owes p idx := by
  intro howes
  have howed := howes.of_pollChunks
  refine hwhole.poll_complete hnil howed.attached idx
    ⟨hwhole.held_iff.mpr ?_, fun b hb => ?_, howed.not_flying, fun cap hcap => ?_⟩
  · rw [← hwhole.numShards_eq, hpollable.numShards_eq]
    exact howed.in_range
  · exact Bool.eq_false_iff.mpr fun hget => howed.not_had ⟨b, hb, hget⟩
  · rw [EmitPlanner.cap, hmode] at hcap
    cases hcap

/-- No operation changes the planner's mode. -/
theorem mode_applyOp [Crates] (s : RsStrategy) (op : StrategyOp) :
    (s.applyOp op).planner.mode = s.planner.mode := by
  cases op with
  | take i data =>
    obtain ⟨chunks, hchunks⟩ := s.takeChunk_eq i data
    rw [applyOp, hchunks]
  | attach | routing => rfl
  | detach peer completed => exact s.planner.removePeer_mode peer
  | pollChunks =>
    refine pollPeers_induct (P := fun s₁ => s₁.planner.mode = s.planner.mode) _ ?_ rfl
    rintro q - s₁ s₂ hstep hmode
    cases hstep with
    | idle hal hsame => exact hsame.mode_eq.trans hmode
    | cancelled hal hentry helig hall hchunk => exact hall.mode_eq.trans hmode
    | dispatched hal hentry helig hall hchunk => exact hall.mode_eq.trans hmode
  | pollRouting force =>
    rw [applyOp, pollRouting_planner]
  | sent peer handle ok =>
    show (s.chunkSent peer handle ok).planner.mode = _
    unfold chunkSent
    split
    · rfl
    · split
      · rfl
      · exact EmitPlanner.refundAllocation_mode _ _

/-- A strategy is an origin or a relay for good. -/
theorem mode_runOps [Crates] (s : RsStrategy) (ops : List StrategyOp) :
    (s.runOps ops).planner.mode = s.planner.mode := by
  induction ops generalizing s with
  | nil => rfl
  | cons op ops ih => exact (ih _).trans (s.mode_applyOp op)

end RsStrategy

section Stocked

variable [Crates] {F : Prop} {s s' : Session RsStrategy}

/-- The strategy is in a state its operations put it in, and that of an origin holds all its shards. -/
structure Session.Stocked (s : Session RsStrategy) : Prop where
  driven : s.strategy.Driven
  whole : s.state = .origin → (∃ shards, s.strategy.Whole shards) ∧ s.strategy.planner.mode = .origin

/-- Only what was an origin is one. -/
theorem SessionOp.origin (h : SessionOp F s s') (hs : s'.state = .origin) : s.state = .origin := by
  cases h with
  | attach | detach | poll | sent => exact hs
  | take idx data =>
    by_contra hne
    unfold Session.takeChunk at hs
    cases hstate : s.state with
    | origin => exact hne hstate
    | consuming =>
      simp only [hstate] at hs
      split at hs
      · cases hs
      · split at hs <;> cases hs
    | decoding | reconstructed | failed =>
      simp only [hstate] at hs
      exact hne (hstate ▸ hs)
  | finish =>
    unfold Session.decodeAndFinish at hs
    split at hs
    · exact hs
    · split at hs <;> cases hs

omit [Crates] in
/-- An origin takes no chunks. -/
theorem Session.takeChunk_of_origin [Crates] (s : Session RsStrategy) (hs : s.state = .origin) (idx : Nat)
    (data : Bytes) : (s.takeChunk idx data).2 = s := by
  unfold Session.takeChunk
  rw [hs]

/-- An origin keeps all its shards. -/
theorem SessionOp.stocked (h : SessionOp F s s') (hs : s.Stocked) : s'.Stocked := by
  obtain ⟨ops, hops⟩ := h.runOps
  refine ⟨SessionOps.driven (.single h) hs.driven, fun horigin => ?_⟩
  obtain ⟨⟨shards, hwhole⟩, hmode⟩ := hs.whole (h.origin horigin)
  rw [hops]
  exact ⟨⟨shards, hwhole.runOps ops⟩, (s.strategy.mode_runOps ops).trans hmode⟩

/-- An origin that was just built has all its shards. -/
theorem BuiltAs.stocked (hrs : RsCorrect) {state : SessionState} {strategy : RsStrategy}
    (h : BuiltAs state strategy) : Session.Stocked ⟨strategy, state⟩ := by
  cases h with
  | relay h => exact ⟨RsStrategy.Built.driven (.inr ⟨_, _, _, h⟩), nofun⟩
  | origin h =>
    refine ⟨RsStrategy.Built.driven (.inl ⟨_, _, _, h⟩), fun _ => ?_⟩
    obtain ⟨shards, k, m, chunkLen, -, heq, hwhole⟩ := RsStrategy.newOriginWithSeed_ok hrs h
    refine ⟨⟨shards, hwhole⟩, ?_⟩
    rw [heq]
    rfl

/-- What an origin's empty poll leaves is not owed. -/
theorem Session.Stocked.not_owes (hs : s.Stocked) (hrs : RsCorrect) (horigin : s.state = .origin)
    (hnil : s.poll.1.dispatches = []) (p : PeerId) (idx : Nat) : ¬ s.poll.2.strategy.Owes p idx := by
  obtain ⟨⟨shards, hwhole⟩, hmode⟩ := hs.whole horigin
  have hrouted : (s.strategy.pollRouting false).2.planner.mode = .origin :=
    (s.strategy.mode_applyOp (.pollRouting false)).trans hmode
  exact RsStrategy.not_owes_of_poll_nil (hwhole.runOps [.pollRouting false]) hrouted
    (hs.driven.pollable hrs).pollRouting hnil

end Stocked

/-! ## What keeps a session awake -/

namespace Ledger

/-- A chunk is pending, or the session is no origin, or it owes nothing and no batch of it is being sent. -/
def Awake (L : Ledger) : Prop :=
  (∃ token, (L.pending token).isSome) ∨ ∀ s, L.session = some s → s.state = .origin →
    L.unsent = [] ∧ ∀ p idx, ¬ s.strategy.Owes p idx

end Ledger

/-- The input may take pending chunks of the session away. -/
def Input.Drops (k : SessionKey) : Input RsStrategy → Prop
  | .event (.chunkSendResult _ c m ..) => (c, m) = k
  | .event (.peerDisconnected _) => True
  | _ => False

section Steps

variable [Crates] {A : Premises} {i : Input RsStrategy} {k : SessionKey} {L L' : Ledger}

/-- What is pending stays so. -/
theorem LedgerStep.pending (h : LedgerStep A i k L L') (hdrops : ¬ i.Drops k) (hsweeps : ¬ A.sweeps)
    (hpending : ∃ token, (L.pending token).isSome) : ∃ token, (L'.pending token).isSome := by
  cases h with
  | submitted | hosted | enrolled | unsubscribed | created | openRefused | opened | routed | polled
  | chunkRefused | abandoned | took | decoded | detached | parked | unparked | swept => exact hpending
  | disconnected hdisc =>
    subst hdisc
    exact absurd trivial hdrops
  | @chunkAccepted s d => exact ⟨d.handle, by simp⟩
  | resolved hresult =>
    subst hresult
    exact absurd rfl hdrops
  | disposed hsweep => exact absurd hsweep hsweeps

/-- A peer that announces the channel is a subscriber still. -/
theorem LedgerStep.subscribed {p : PeerId} (h : LedgerStep A i k L L') (hi : Engine.Announces i p k.1)
    (hp : L.Subscribed p) : L'.Subscribed p := by
  cases h.reattached p with
  | kept _ _ hsub => exact hsub.mpr hp
  | joined _ _ _ _ hsub => exact hsub
  | left hleft => rcases hleft with rfl | rfl <;> exact hi.elim
  | created _ _ _ hsubs | done _ _ hsubs | disposed _ _ hsubs =>
    rw [Ledger.Subscribed, hsubs]
    exact hp

/-- Attached peers subscribe. -/
theorem LedgerStep.attached_subscribed {p : PeerId} (h : LedgerStep A i k L L') (hvalid : A.valid)
    (hL : L.Attached p → L.Subscribed p) (hp : L'.Attached p) : L'.Subscribed p := by
  cases h.reattached p with
  | kept _ hatt hsub => exact hsub.mpr (hL (hatt.mp hp))
  | joined _ _ _ _ hsub => exact hsub
  | left _ _ _ hatt =>
    obtain ⟨hbefore, hnot⟩ := hatt hp
    exact absurd (hL hbefore) hnot
  | created _ _ _ hsubs _ hatt =>
    rw [Ledger.Subscribed, hsubs]
    exact (hatt hvalid).mp hp
  | done _ _ _ hnot => exact absurd hp hnot
  | disposed _ hnone =>
    rw [Ledger.Attached, hnone] at hp
    cases hp

/-- An input that creates no session makes no origin. -/
theorem LedgerStep.origin (h : LedgerStep A i k L L')
    (hcreates : ∀ {L preamble state strategy}, ¬ Creation i k L preamble state strategy)
    (hL : ∀ s, L.session = some s → s.state ≠ .origin) : ∀ s, L'.session = some s → s.state ≠ .origin := by
  have hrel : Session.OpRel A.polls fun s s' => s'.state = .origin → s.state = .origin := {
    refl := fun _ => id
    attach := fun s p => SessionOp.origin (F := True) (.attach s p)
    detach := fun s p completed => SessionOp.origin (F := True) (.detach s p completed)
    poll := fun s _ => SessionOp.origin (F := True) (.poll s)
    sent := fun s p handle ok => SessionOp.origin (F := True) (.sent s p handle ok)
    take := fun s idx data => SessionOp.origin (F := True) (.take s idx data)
    finish := fun s => SessionOp.origin (.finish s trivial) }
  intro s' hs' horigin
  rcases h.session_rel hrel hs' with ⟨s, hs, hstate⟩ | ⟨-, ⟨_, _, _, hnew⟩, -⟩
  · exact hL s hs (hstate horigin)
  · exact hcreates hnew

/-- **Only a change that gives the session something to send, or drops a chunk of it, puts it to sleep.** -/
theorem LedgerStep.awake (hrs : RsCorrect) (h : LedgerStep A i k L L')
    (hpublish : ∀ strategy preamble, i ≠ .publish k.1 k.2 strategy preamble)
    (hannounced : ∀ p, Engine.Announces i p k.1 → L.Subscribed p) (hdrops : ¬ i.Drops k)
    (hstocked : ∀ s, L.session = some s → s.Stocked) (hawake : L.Awake) : L'.Awake := by
  -- detaching a peer leaves fewer shards owed
  have hdetach : ∀ {s : Session RsStrategy} {p : PeerId} {completed : Bool}, L.unsent = []
      ∧ (∀ p idx, ¬ s.strategy.Owes p idx) →
      L.unsent = [] ∧ ∀ q idx, ¬ (s.detachPeer p completed).strategy.Owes q idx := by
    intro s p completed hsettled
    refine ⟨hsettled.1, fun q idx howes => hsettled.2 q idx ?_⟩
    exact @RsStrategy.Owes.of_detachPeer s.strategy q p idx completed howes
  -- a polled batch that comes out empty owes nothing; a chunk taken leaves one in flight
  cases h with
  | submitted | hosted | openRefused | opened | routed | parked | unparked | swept => exact hawake
  | enrolled hi hsubs hnew =>
    have hold := hannounced _ hi
    rw [Ledger.Subscribed, hsubs] at hold
    exact absurd (of_decide_eq_true hold) hnew
  | unsubscribed =>
    refine hawake.imp id fun hsettled s' hs' horigin => ?_
    obtain ⟨s, hs, rfl⟩ := Option.map_eq_some_iff.mp hs'
    exact hdetach (hsettled s hs horigin)
  | disconnected hdisc =>
    subst hdisc
    exact absurd trivial hdrops
  | created hnone hsubs hnew =>
    refine .inr fun s' hs' horigin => ?_
    cases hs'
    rw [Session.attachEach_state] at horigin
    cases hnew with
    | relay => cases horigin
    | origin hi => exact absurd hi (hpublish _ _)
  | @polled s hs =>
    refine hawake.imp id fun hsettled s' hs' horigin => ?_
    cases hs'
    have hnot := (hsettled s hs horigin).2
    have hpollable := ((hstocked s hs).driven.pollable hrs).pollRouting
    refine ⟨List.eq_nil_iff_forall_not_mem.mpr fun d hd => ?_, fun p idx howes => ?_⟩
    · exact hnot d.peer d.chunkId (RsStrategy.owes_of_mem_pollChunks hpollable hd).of_pollRouting
    · exact hnot p idx (RsStrategy.Owes.of_pollChunks howes).of_pollRouting
  | @chunkAccepted s d => exact .inl ⟨d.handle, by simp⟩
  | @chunkRefused s d rest err hs hd hopen hbatch =>
    refine hawake.imp id fun hsettled s' hs' horigin => ?_
    cases hs'
    have hnil := (hsettled s hs horigin).1
    rw [hbatch] at hnil
    cases hnil
  | abandoned => exact hawake.imp id fun hsettled s hs horigin => ⟨rfl, (hsettled s hs horigin).2⟩
  | @took s idx data hfeeds hs =>
    refine hawake.imp id fun hsettled s' hs' horigin => ?_
    cases hs'
    have hstate := SessionOp.origin (F := True) (.take s idx data) horigin
    rw [s.takeChunk_of_origin hstate]
    exact hsettled s hs hstate
  | @decoded s now hdecodes hs =>
    refine hawake.imp id fun hsettled s' hs' horigin => ?_
    cases hs'
    rw [s.decodeAndFinish_strategy]
    exact hsettled s hs (SessionOp.origin (F := True) (.finish s trivial) horigin)
  | resolved hresult =>
    subst hresult
    exact absurd rfl hdrops
  | detached _ hs =>
    refine hawake.imp id fun hsettled s' hs' horigin => ?_
    cases hs'
    exact hdetach (hsettled _ hs horigin)
  | disposed => exact .inr fun s hs => by cases hs

end Steps

namespace Engine

section Stocked

variable [Crates] {e e' : Engine RsStrategy Wire} {i : Input RsStrategy}

/-- Every session is stocked, and every relay will be. -/
structure Stocked (e : Engine RsStrategy Wire) : Prop where
  factories : e.RelayFactories
  sessions : ∀ c m, ∀ s ∈ e.session? c m, s.Stocked

/-- Every action keeps every origin stocked. -/
theorem Act.stocked (hrs : RsCorrect) {D : Terms Wire} (h : Act i D e e') (hi : i.Valid) (he : e.Stocked) :
    e'.Stocked where
  factories := h.relayFactories (hostsRelays_of_valid hi) he.factories
  sessions := by
    refine h.eachSession he.factories (fun hop hs => hop.stocked hs)
      (fun _ _ _ _ hnew => BuiltAs.stocked hrs (.relay hnew)) (fun c m strategy preamble hpublish => ?_)
      he.sessions
    subst hpublish
    obtain ⟨payload, config, seed, hnew⟩ := hi
    exact BuiltAs.stocked hrs (.origin hnew)

theorem Stocked.acts (he : e.Stocked) (hrs : RsCorrect) {D : Terms Wire} (hi : i.Valid)
    (h : Acts i D e e') : e'.Stocked :=
  h.induct (fun hact he => hact.stocked hrs hi he) he

/-- A new engine has no origins. -/
theorem stocked_withConfig (localPeer : PeerId) (net : Wire) (delivered : Sink) (config : EngineConfig)
    (clock : Clock) : (withConfig localPeer net delivered config clock).Stocked where
  factories := relayFactories_withConfig localPeer net delivered config clock
  sessions c m s hs := by simp [session?, withConfig] at hs

/-- A chunk of the session waits for its outcome. -/
def HasPending (e : Engine RsStrategy Wire) (c : ChannelId) (m : MessageId) : Prop :=
  ∃ token : DispatchHandle, (c, m, token) ∈ e.pendingSends

omit [Crates] in
/-- A session has a chunk pending exactly if its ledger shows one. -/
theorem hasPending_iff {c : ChannelId} {m : MessageId} :
    e.HasPending c m ↔ ∃ token, ((e.ledger (c, m)).pending token).isSome :=
  exists_congr fun _ => ExtTreeMap.mem_iff_isSome_getElem?

/-- A run of valid inputs, with nothing known of its polls. -/
abbrev honest : Premises := ⟨fun _ => True, True, True, True⟩

/-- **Actions that bring the session nothing to send and drop no chunk of it keep it awake.** -/
theorem Acts.awake (hrs : RsCorrect) {k : SessionKey} (h : Acts i (premisedTerms honest) e e')
    (hi : i.Valid) (hpublish : ∀ strategy preamble, i ≠ .publish k.1 k.2 strategy preamble)
    (hannounced : ∀ p, Announces i p k.1 → p ∈ e.subscribersOf k.1) (hdrops : ¬ i.Drops k) (he : e.Stocked)
    (hawake : (e.ledger k).Awake) : (e'.ledger k).Awake := by
  refine ((h.ledger (fun _ => ⟨hi, he.factories⟩) k).induct
    (Q := fun L => (∀ s, L.session = some s → s.Stocked) ∧ (∀ p, Announces i p k.1 → L.Subscribed p)
      ∧ L.Awake) (fun hstep hold => ?_)
    ⟨he.sessions k.1 k.2, fun p hp => mem_subscribersOf.mp (hannounced p hp), hawake⟩).2.2
  obtain ⟨hstocked, hsubs, hawake⟩ := hold
  exact ⟨hstep.live trivial (fun hop hs => hop.stocked hs) (fun _ _ hbuilt => hbuilt.stocked hrs) hstocked,
    fun p hp => hstep.subscribed hp (hsubs p hp), hstep.awake hrs hpublish hsubs hdrops hstocked hawake⟩

/-- What the input has no part in keeps it awake. -/
theorem Acts.awake_recv (hrs : RsCorrect) {k : SessionKey} (h : Acts .recv (premisedTerms honest) e e')
    (he : e.Stocked) (hawake : (e.ledger k).Awake) : (e'.ledger k).Awake :=
  h.awake hrs trivial (fun _ _ => nofun) (fun _ => False.elim) id he hawake

end Stocked

/-! ## What a drain does for the session -/

section Drain

variable [Crates] {e e' : Engine RsStrategy Wire} {c : ChannelId} {m : MessageId} {s : Session RsStrategy}

/-- A loop whose chunks are accepted does not stall. -/
theorem dispatchEach_stalled {ds : List (ChunkDispatch Nat)} {stalled stalled' : Bool}
    (hacc : AllAccepted e e') (h : dispatchEach c m ds stalled e = (.ok stalled', e')) :
    stalled' = stalled := by
  induction ds generalizing e with
  | nil =>
    cases h
    rfl
  | cons d ds ih =>
    have hopen := ensureSessionOpen_log e c m d.peer
    unfold dispatchEach at h
    rcases hr : e.ensureSessionOpen c m d.peer with ⟨err | _, e₁⟩ <;> rw [hr] at h hopen
    · cases h
    · have hsent := send_log e₁ (.chunk d.peer c m d.chunkId d.payload d.handle)
      have hsend := send_accepted (e := e₁) (.chunk d.peer c m d.chunkId d.payload d.handle)
      simp only at h
      rcases hr' : e₁.send (.chunk d.peer c m d.chunkId d.payload d.handle) with ⟨err | _, e₂⟩ <;>
        rw [hr'] at h hsent hsend <;> simp only at h
      · have hlog := dispatchEach_log c m ds true (e₂.modifySession c m (·.chunkSent d.peer d.handle false))
        rw [h] at hlog
        have hrefused : AllAccepted e₁ e₂ := (hacc.right hopen).left hlog
        cases hsend hrefused
      · have htaken : AllAccepted { e₂ with
            pendingSends := e₂.pendingSends.insert (c, m, d.handle) d.peer } e' :=
          (hacc.right hopen).right hsent
        exact ih htaken h

/-- The last round of a loop whose sends are accepted has an empty poll. -/
theorem drainRound_some {r : Except EngineError Unit} (hs : e.session? c m = some s)
    (hacc : AllAccepted e e') (h : e.drainRound c m = (some r, e')) :
    e'.session? c m = some s.poll.2 ∧ s.poll.1.dispatches = [] := by
  -- a failed round leaves a refusal in the log, which `hacc` excludes
  cases r with
  | error err =>
    have hrefused := drainRound_error (congrArg Prod.fst h)
    rw [h] at hrefused
    obtain ⟨before, sent, hlog, ⟨added, hadded⟩, hno, -⟩ := hrefused
    have hyes := hacc sent (by rw [hlog, ← hadded, List.append_assoc, List.drop_left]; simp)
    rw [hno] at hyes
    cases hyes
  | ok =>
    unfold drainRound at h
    simp only [hs] at h
    split at h
    case isTrue hidle =>
      cases h
      rw [session?_modifySession_self, hs]
      exact ⟨rfl, List.isEmpty_iff.mp (Bool.and_eq_true_iff.mp hidle).2⟩
    case isFalse =>
      have hroute := (routeWork_submitsWithin c m s.poll.1.routing
        (e.modifySession c m fun _ => s.poll.2)).log
      rcases hr : routeWork c m s.poll.1.routing (e.modifySession c m fun _ => s.poll.2) with
        ⟨err | _, e₁⟩ <;> rw [hr] at h hroute
      · cases h
      · simp only at h
        rcases hd : dispatchEach c m s.poll.1.dispatches false e₁ with ⟨err | stalled, e₂⟩ <;> rw [hd] at h
        · cases h
        · cases stalled
          · cases h
          · cases h
            cases dispatchEach_stalled (hacc.right hroute) hd

/-- **A drain of an origin whose sends are all accepted leaves nothing owed.** -/
theorem drainLoop_settles (hrs : RsCorrect) (hs : e.session? c m = some s) (hstocked : s.Stocked)
    (horigin : s.state = .origin) {fuel : Nat} (hret : (drainLoop c m fuel e).1 ≠ none)
    (hacc : AllAccepted e (drainLoop c m fuel e).2) :
    ∃ s', (drainLoop c m fuel e).2.session? c m = some s' ∧ ∀ p idx, ¬ s'.strategy.Owes p idx := by
  induction fuel generalizing e s with
  | zero => exact absurd rfl hret
  | succ fuel ih =>
    have hlog := (drainRound_steps e c m).log
    unfold drainLoop at hret hacc ⊢
    rcases hr : e.drainRound c m with ⟨_ | r, e₁⟩ <;> rw [hr] at hret hacc hlog
    · have hs₁ := (drainRound_none hs hr).1
      exact ih hs₁ (SessionOp.stocked (F := True) (.poll s) hstocked) horigin hret (hacc.right hlog)
    · obtain ⟨hs₁, hnil⟩ := drainRound_some hs hacc hr
      exact ⟨s.poll.2, hs₁, hstocked.not_owes hrs horigin hnil⟩

/-- The message is a chunk of the key. -/
def IsChunkOf (c : ChannelId) (m : MessageId) (msg : NetSend) : Prop :=
  msg.isChunk ∧ msg.sessionKey? = some (c, m)

instance (c : ChannelId) (m : MessageId) : DecidablePred (IsChunkOf c m) :=
  fun msg => inferInstanceAs (Decidable (msg.isChunk ∧ msg.sessionKey? = some (c, m)))

instance {e e' : Engine RsStrategy Wire} {P : NetSend → Prop} [DecidablePred P] :
    Decidable (AcceptedSince e e' P) :=
  inferInstanceAs (Decidable (∃ sent ∈ e'.net.log.drop e.net.log.length, sent.accepted ∧ P sent.msg))

/-- The drain of the session meets a refusal only if a chunk of the session is pending, or if it gets one
accepted itself. -/
def Fruitful (e : Engine RsStrategy Wire) (c : ChannelId) (m : MessageId) : Prop :=
  AllAccepted e (e.drainSession c m).2 ∨ e.HasPending c m
    ∨ AcceptedSince e (e.drainSession c m).2 (IsChunkOf c m)

/-- **A fruitful drain wakes the session.** -/
theorem Fruitful.awake (h : e.Fruitful c m) (hrs : RsCorrect) (he : e.Stocked) :
    ((e.drainSession c m).2.ledger (c, m)).Awake := by
  have hrecords : Records c m e (e.drainSession c m).2 := (drainSession_steps e c m).records
  have hpending : (e.drainSession c m).2.HasPending c m →
      ((e.drainSession c m).2.ledger (c, m)).Awake := fun h => .inl (hasPending_iff.mp h)
  -- all sends were taken, a result was pending before, or a chunk was taken now
  rcases h with hacc | ⟨token, htoken⟩ | ⟨sent, hsent, haccepted, hchunk, hkey⟩
  · refine .inr fun s' hs' horigin => ⟨rfl, ?_⟩
    cases hs : e.session? c m with
    | none =>
      have hnone : (e.drainSession c m).2.session? c m = none :=
        (drainSession_steps e c m).induct (fun hstep hn => hstep.session_none hn) hs
      cases hnone.symm.trans hs'
    | some s =>
      have hstocked := he.sessions c m s hs
      obtain ⟨s₁, hs₁, hstate, -⟩ := (drainSession_steps e c m).session hs
      obtain rfl := Option.some.inj (hs₁.symm.trans hs')
      obtain ⟨s₂, hs₂, hnot⟩ := drainLoop_settles hrs hs hstocked (hstate ▸ horigin)
        (drainLoop_returns (hstocked.driven.pollable hrs) hs) hacc
      obtain rfl := Option.some.inj (hs₂.symm.trans hs')
      exact hnot
  · exact hpending ⟨token, (hrecords.pending token).mpr (.inl htoken)⟩
  · cases hmsg : sent.msg with
    | chunk p c' m' chunkId payload token =>
      rw [hmsg] at hkey
      cases hkey
      exact hpending ⟨token, (hrecords.pending token).mpr
        (.inr ⟨sent, hsent, haccepted, p, chunkId, payload, hmsg⟩)⟩
    | _ =>
      rw [hmsg] at hchunk
      cases hchunk

end Drain

/-! ## What a step does for the session -/

section Steps

variable [Crates] {e e' : Engine RsStrategy Wire} {i : Input RsStrategy} {k : SessionKey} {D : Terms Wire}
  {p q : PeerId} {c : ChannelId}

/-- One of the drains is of the session, and fruitful. -/
def Rescued (calls : List (Engine RsStrategy Wire × SessionKey)) (k : SessionKey) : Prop :=
  ∃ call ∈ calls, call.2 = k ∧ Fruitful call.1 k.1 k.2

/-- **No step leaves the session with something to send and nothing pending, unless it drains it
fruitfully**: not a publish, nor a peer that joins, nor an outcome; and a peer that disconnects takes not
all that is pending with it. -/
structure Rouses (e : Engine RsStrategy Wire) (i : Input RsStrategy) : Prop where
  published : ∀ c m strategy preamble, i = .publish c m strategy preamble → c ∈ e.channels →
    e.session? c m = none → Rescued (e.drainCalls i) (c, m)
  announced : ∀ p c m, Announces i p c → p ∉ e.subscribersOf c → ∀ s ∈ e.session? c m, s.state = .origin →
    e.HasPending c m ∨ Rescued (e.drainCalls i) (c, m)
  resolved : ∀ p c m token ok, i = .event (.chunkSendResult p c m token ok) →
    (c, m, token) ∈ e.pendingSends → ∀ s ∈ e.session? c m, s.state = .origin →
    Rescued (e.drainCalls i) (c, m)
  disconnected : ∀ p c m, i = .event (.peerDisconnected p) → e.HasPending c m →
    ∀ s ∈ e.session? c m, s.state = .origin →
    (∃ (token : DispatchHandle) (q : PeerId), e.pendingSends[(c, m, token)]? = some q ∧ q ≠ p)
      ∨ ∀ q idx, s.strategy.Owes q idx → q = p

omit [Crates] in
/-- An input announces channels of one peer only. -/
theorem Announces.eq {c' : ChannelId} (h : Announces i p c) (h' : Announces i q c') : p = q := by
  unfold Announces at h h'
  split at h
  · exact h.1.trans h'.1.symm
  · exact h.1.trans h'.1.symm
  · exact h.elim

/-- A peer that is announced stays subscribed. -/
theorem Acts.stays_subscribed (h : Acts i D e e') (hi : Announces i p c) (hp : p ∈ e.subscribersOf c) :
    p ∈ e'.subscribersOf c :=
  mem_subscribersOf_iff.mpr
    (h.stated (o := some true) (Input.statement_of_announces hi) (mem_subscribersOf_iff.mp hp))

/-- After one of its drains, the rest of `drainEach` follows. -/
theorem drainEachCalls_after (hD : ∀ e k, D.drains e k) (ms : List MessageId) (e : Engine RsStrategy Wire) :
    ∀ call ∈ drainEachCalls c ms e, call.2.1 = c
      ∧ Acts i D (call.1.drainSession call.2.1 call.2.2).2 (drainEach c ms e).2 := by
  induction ms generalizing e with
  | nil => simp [drainEachCalls]
  | cons m ms ih =>
    unfold drainEachCalls drainEach
    rw [List.forall_mem_cons]
    rcases hr : e.drainSession c m with ⟨err | _, e₁⟩
    · exact ⟨⟨rfl, .refl⟩, by simp⟩
    · exact ⟨⟨rfl, drainEach_acts c ms e₁ fun _ _ => hD _ _⟩, ih e₁⟩

/-- What follows each drain of a channel are actions of the same step. -/
theorem drainChannelCalls_after (hD : ∀ e k, D.drains e k) (e : Engine RsStrategy Wire) :
    ∀ call ∈ e.drainChannelCalls c, call.2.1 = c ∧ c ∈ e.channels
      ∧ Acts i D (call.1.drainSession call.2.1 call.2.2).2 (e.drainChannel c).2 := by
  unfold drainChannelCalls drainChannel
  cases hch : e.channels[c]? with
  | none => simp
  | some ch =>
    intro call hcall
    obtain ⟨hc, hafter⟩ := drainEachCalls_after (i := i) hD _ e call hcall
    exact ⟨hc, (BTreeMap.mem_iff_get _ _).mpr ⟨ch, hch⟩, hafter⟩

/-- Enrolments that drain the session fruitfully leave it awake. -/
theorem enrolEach_rescued (hrs : RsCorrect) {cs : List ChannelId} (hi : i.Valid)
    (hannounces : ∀ c ∈ cs, Announces i p c) (hdrops : ¬ i.Drops k) (he : e.Stocked)
    (h : Rescued (enrolEachCalls p cs e) k) : ((enrolEach p cs e).ledger k).Awake := by
  -- the drain that rescues the session is in the first channel or in a later one
  induction cs generalizing e with
  | nil =>
    obtain ⟨call, hcall, -⟩ := h
    cases hcall
  | cons c cs ih =>
    have hcs := fun c' hc' => hannounces c' (List.mem_cons_of_mem c hc')
    have hc := hannounces c List.mem_cons_self
    have hany : ∀ e k, (premisedTerms honest).drains e k := fun _ _ _ _ _ _ => trivial
    have henrol : Acts i (premisedTerms honest) e (e.subscribePeer c p) := .single (.enrolled hc)
    have hdrain : Acts i (premisedTerms honest) _ ((e.subscribePeer c p).drainChannel c).2 :=
      drainChannel_acts c _ fun _ _ => hany _ _
    obtain ⟨call, hcall, hkey, hfruitful⟩ := h
    rcases List.mem_append.mp hcall with hcall | hcall
    · obtain ⟨hchannel, hhosted, hafter⟩ := drainChannelCalls_after (i := i) hany _ call hcall
      have hbefore : Acts i Terms.any (e.subscribePeer c p) call.1 := drainChannelCalls_acts c _ call hcall
      have hstocked : call.1.Stocked := (he.acts hrs hi henrol).acts hrs hi hbefore
      have hrest := hafter.trans (enrolEach_acts p cs _ hcs fun _ _ => hany _ _)
      have hdrained : Acts i (premisedTerms honest) call.1 (call.1.drainSession call.2.1 call.2.2).2 :=
        .single (.drained (hany _ _))
      subst hkey
      subst hchannel
      have hjoined : p ∈ (e.subscribePeer call.2.1 p).subscribersOf call.2.1 := by
        obtain ⟨ch', hch'⟩ := (BTreeMap.mem_iff_get _ _).mp hhosted
        replace hch' : (e.channels.modify call.2.1 (·.subscribePeer p))[call.2.1]? = some ch' := hch'
        rw [BTreeMap.get_modify, if_pos rfl] at hch'
        obtain ⟨ch, hch, -⟩ := Option.map_eq_some_iff.mp hch'
        rw [mem_subscribersOf_iff, subscribed_subscribePeer, if_pos ⟨rfl, rfl⟩, subscribed, hch]
        rfl
      refine Acts.awake hrs hrest hi (fun strategy preamble hpublish => ?_) (fun q hq => ?_) hdrops
        (hstocked.acts hrs hi hdrained) (hfruitful.awake hrs hstocked)
      · subst hpublish
        exact hc.elim
      · obtain rfl := hc.eq hq
        exact hdrained.stays_subscribed hq (hbefore.stays_subscribed hq hjoined)
    · exact ih hcs ((he.acts hrs hi henrol).acts hrs hi hdrain) ⟨call, hcall, hkey, hfruitful⟩

/-- Enrolments keep what is pending, and wake the session if they drain it fruitfully. -/
theorem enrolEach_awake (hrs : RsCorrect) {cs : List ChannelId} (hi : i.Valid)
    (hannounces : ∀ c ∈ cs, Announces i p c) (hdrops : ¬ i.Drops k) (he : e.Stocked)
    (h : e.HasPending k.1 k.2 ∨ Rescued (enrolEachCalls p cs e) k) :
    ((enrolEach p cs e).ledger k).Awake := by
  rcases h with hpending | hrescued
  · have hacts : Acts i (premisedTerms (handling honest)) e (enrolEach p cs e) :=
      enrolEach_acts p cs e hannounces fun _ _ _ _ _ _ => trivial
    refine .inl ((hacts.ledger (fun _ => ⟨hi, he.factories⟩) k).induct
      (Q := fun L => ∃ token, (L.pending token).isSome) (fun hstep => hstep.pending hdrops id) ?_)
    exact hasPending_iff.mp hpending
  · exact enrolEach_rescued hrs hi hannounces hdrops he hrescued

/-- The cleanup after an event wakes and lulls no session. -/
theorem step_event_awake (hrs : RsCorrect) {ev : NetEvent} (he : e.Stocked)
    (h : ((e.handleEvent ev).ledger k).Awake) : ((e.step (.event ev)).2.ledger k).Awake := by
  have hacts : Acts (.event ev) Terms.any e (e.handleEvent ev) :=
    e.beforeSweep_event ev ▸ beforeSweep_acts trivial (.event ev) e fun _ _ => trivial
  exact Acts.awake_recv hrs (maybeRunCleanup_acts trivial _) (he.acts (i := .event ev) hrs trivial hacts) h

/-- A session that is no origin stays one on an input that creates none. -/
theorem step_awake_of_not_origin (hi : i.Valid) (he : e.Stocked)
    (hcreates : ∀ {L preamble state strategy}, ¬ Creation i k L preamble state strategy)
    (h : ∀ s, e.session? k.1 k.2 = some s → s.state ≠ .origin) : ((e.step i).2.ledger k).Awake := by
  have hsteps := step_ledger (A := honest) i e k (fun _ => ⟨hi, he.factories⟩)
    (fun _ _ _ _ _ _ => trivial) trivial trivial
  have hnot := hsteps.induct (Q := fun L => ∀ s, L.session = some s → s.state ≠ .origin)
    (fun hstep => hstep.origin hcreates) h
  exact .inr fun s hs horigin => absurd horigin (hnot s hs)

/-- A publish that reaches its drain ends with it. -/
theorem publish_of_call {c : ChannelId} {m : MessageId} {strategy : RsStrategy} {preamble : Bytes}
    {call : Engine RsStrategy Wire × SessionKey} (hcall : call ∈ e.publishCalls c m strategy preamble) :
    (e.publish c m strategy preamble).2 = (call.1.drainSession c m).2 := by
  unfold publishCalls at hcall
  unfold Engine.publish
  cases hch : e.channels[c]? with
  | none =>
    rw [hch] at hcall
    cases hcall
  | some ch =>
    rw [hch] at hcall
    dsimp only at hcall ⊢
    rcases hstart : ch.startOriginSession m strategy with ⟨err | ⟨⟩, ch'⟩
    · rw [hstart] at hcall
      cases hcall
    · rw [hstart] at hcall
      dsimp only at hcall ⊢
      generalize (openEach c m _ _ : Except EngineError Unit × Engine RsStrategy Wire) = opened
        at hcall ⊢
      rcases opened with ⟨err | ⟨⟩, e₁⟩
      · cases hcall
      · rw [List.mem_singleton.mp hcall]

/-- A publish leaves its session awake. -/
theorem Rouses.publish (h : e.Rouses i) (hrs : RsCorrect) (hi : i.Valid) (he : e.Stocked)
    (hawake : (e.ledger k).Awake) {strategy : RsStrategy} {preamble : Bytes}
    (hpublish : i = .publish k.1 k.2 strategy preamble) : ((e.step i).2.ledger k).Awake := by
  subst hpublish
  show ((e.publish k.1 k.2 strategy preamble).2.ledger k).Awake
  cases hs : e.session? k.1 k.2 with
  | some s => rwa [publish_of_live hs]
  | none =>
    by_cases hhosted : k.1 ∈ e.channels
    · obtain ⟨call, hcall, hkey, hfruitful⟩ := h.published k.1 k.2 strategy preamble rfl hhosted hs
      have hbefore := publishCalls_acts k.1 k.2 strategy preamble e call hcall
      have hwoken := hfruitful.awake hrs (he.acts hrs hi hbefore)
      rwa [publish_of_call hcall]
    · have hsame : e.publish k.1 k.2 strategy preamble = (.error (.unknownChannel k.1), e) := by
        unfold Engine.publish
        rw [ExtTreeMap.getElem?_eq_none hhosted]
      rwa [hsame]

/-- A peer that joins leaves the channel's origins awake. -/
theorem Rouses.join (h : e.Rouses i) (hrs : RsCorrect) (hi : i.Valid) (he : e.Stocked)
    (hp : Announces i p k.1) (hnew : p ∉ e.subscribersOf k.1) {s : Session RsStrategy}
    (hs : e.session? k.1 k.2 = some s) (horigin : s.state = .origin) : ((e.step i).2.ledger k).Awake := by
  have hwake := h.announced p k.1 k.2 hp hnew s hs horigin
  cases i with
  | event ev =>
    cases ev with
    | handshake peer version channels peerId =>
      obtain ⟨rfl, rfl, hmem⟩ := hp
      refine step_event_awake hrs he ?_
      have hgreet : Acts (.event (.handshake p protocolVersion channels peerId)) Terms.any e
          { e with connected := e.connected.insert p } := .single (.greeted rfl)
      simp only [drainCalls, if_true] at hwake
      show ((enrolEach p channels { e with connected := e.connected.insert p }).ledger k).Awake
      exact enrolEach_awake (i := .event (.handshake p protocolVersion channels peerId)) hrs trivial
        (fun c hc => ⟨rfl, rfl, hc⟩) id (he.acts (i := .event _) hrs trivial hgreet) hwake
    | subscribe peer c =>
      obtain ⟨rfl, rfl⟩ := hp
      refine step_event_awake hrs he ?_
      show ((enrolEach p [k.1] e).ledger k).Awake
      refine enrolEach_awake (i := .event (.subscribe p k.1)) hrs trivial (fun c hc => ?_) id he ?_
      · exact ⟨rfl, List.mem_singleton.mp hc⟩
      · rwa [enrolEachCalls, enrolEachCalls, List.append_nil]
    | _ => exact hp.elim
  | _ => exact hp.elim

/-- A result leaves its session awake. -/
theorem Rouses.resolve (h : e.Rouses i) (hrs : RsCorrect) (he : e.Stocked) (hawake : (e.ledger k).Awake)
    {token : DispatchHandle} {ok : Bool} (hresult : i = .event (.chunkSendResult p k.1 k.2 token ok))
    {s : Session RsStrategy} (hs : e.session? k.1 k.2 = some s) (horigin : s.state = .origin) :
    ((e.step i).2.ledger k).Awake := by
  subst hresult
  refine step_event_awake hrs he ?_
  show ((e.resolveChunkSend p k.1 k.2 token ok).ledger k).Awake
  unfold resolveChunkSend
  split
  case isTrue hpending =>
    obtain ⟨call, hcall, -, hfruitful⟩ := h.resolved p k.1 k.2 token ok rfl hpending s hs horigin
    simp only [drainCalls, if_pos hpending, List.mem_singleton] at hcall
    subst hcall
    have hresolved : Acts (.event (.chunkSendResult p k.1 k.2 token ok)) Terms.any e
        (e.afterResolve p k.1 k.2 token ok) := .single (.resolved rfl hpending)
    exact hfruitful.awake hrs (he.acts (i := .event _) hrs trivial hresolved)
  case isFalse => exact hawake

/-- A peer that is gone frees what its flights took of the budget; the session is left awake all the same. -/
theorem Rouses.disconnect (h : e.Rouses i) (hrs : RsCorrect) (he : e.Stocked)
    (hattached : ∀ p, (e.ledger k).Attached p → (e.ledger k).Subscribed p) (hawake : (e.ledger k).Awake)
    (hdisc : i = .event (.peerDisconnected p)) {s : Session RsStrategy}
    (hs : e.session? k.1 k.2 = some s) (horigin : s.state = .origin) : ((e.step i).2.ledger k).Awake := by
  subst hdisc
  refine step_event_awake hrs he ?_
  show ((e.handlePeerDisconnected p).ledger k).Awake
  rw [disconnected_ledger]
  -- another flight is pending, or all that is owed is owed to the peer that leaves
  have howes : (∃ (token : DispatchHandle) (q : PeerId),
      e.pendingSends[(k.1, k.2, token)]? = some q ∧ q ≠ p) ∨ ∀ q idx, s.strategy.Owes q idx → q = p := by
    by_cases hpending : e.HasPending k.1 k.2
    · exact h.disconnected p k.1 k.2 rfl hpending s hs horigin
    · rcases hawake with hawake | hawake
      · exact absurd (hasPending_iff.mpr hawake) hpending
      · exact .inr fun q idx howes => absurd howes ((hawake s hs horigin).2 q idx)
  rcases howes with ⟨token, q, hq, hne⟩ | howes
  · refine .inl ⟨token, ?_⟩
    show (e.pendingSends[(k.1, k.2, token)]?.filter (· ≠ p)).isSome
    rw [hq]
    simp [hne]
  · refine .inr fun s' hs' horigin' => ⟨rfl, fun q idx howed => ?_⟩
    simp only [Ledger.disconnect] at hs'
    split at hs'
    case isTrue hsub =>
      obtain ⟨s₀, hs₀, rfl⟩ := Option.map_eq_some_iff.mp hs'
      obtain rfl := Option.some.inj (hs.symm.trans hs₀)
      have hq := howes q idx (@RsStrategy.Owes.of_detachPeer s.strategy q p idx false howed)
      exact ((BTreeSet.mem_erase_iff _ _ _).mp howed.attached).1 hq.symm
    case isFalse hsub =>
      obtain rfl := Option.some.inj (hs.symm.trans hs')
      obtain rfl := howes q idx howed
      exact hsub (hattached q ((ledger_attached hs).mpr howed.attached))

/-- **A step that rouses its sessions leaves each awake.** -/
theorem Rouses.step (h : e.Rouses i) (hrs : RsCorrect) (hi : i.Valid) (he : e.Stocked)
    (hattached : ∀ p, (e.ledger k).Attached p → (e.ledger k).Subscribed p) (hawake : (e.ledger k).Awake) :
    ((e.step i).2.ledger k).Awake := by
  by_cases hpublish : ∃ strategy preamble, i = .publish k.1 k.2 strategy preamble
  · obtain ⟨strategy, preamble, hpublish⟩ := hpublish
    exact h.publish hrs hi he hawake hpublish
  by_cases hquiet : (∀ p, Announces i p k.1 → p ∈ e.subscribersOf k.1) ∧ ¬ i.Drops k
  · refine Acts.awake hrs (step_acts_of_drains trivial trivial i e fun _ _ _ _ _ _ => trivial) hi
      (fun strategy preamble heq => hpublish ⟨strategy, preamble, heq⟩) hquiet.1 hquiet.2 he hawake
  -- the input joins a peer or drops a chunk, so it creates no session
  have hcreates : ∀ {L preamble state strategy}, ¬ Creation i k L preamble state strategy := by
    intro L preamble state strategy hnew
    cases hnew with
    | relay hopen =>
      subst hopen
      exact hquiet ⟨fun _ => False.elim, id⟩
    | origin heq => exact hpublish ⟨_, _, heq⟩
  by_cases horigin : ∃ s, e.session? k.1 k.2 = some s ∧ s.state = .origin
  · obtain ⟨s, hs, horigin⟩ := horigin
    by_cases hjoin : ∃ p, Announces i p k.1 ∧ p ∉ e.subscribersOf k.1
    · obtain ⟨p, hp, hnew⟩ := hjoin
      exact h.join hrs hi he hp hnew hs horigin
    · have hdrops : i.Drops k := by
        by_contra hdrops
        exact hquiet ⟨fun p hp => not_not.mp fun hnew => hjoin ⟨p, hp, hnew⟩, hdrops⟩
      cases i with
      | event ev =>
        cases ev with
        | chunkSendResult peer c m token ok =>
          subst hdrops
          exact h.resolve hrs he hawake rfl hs horigin
        | peerDisconnected peer => exact h.disconnect hrs he hattached hawake rfl hs horigin
        | _ => exact hdrops.elim
      | _ => exact hdrops.elim
  · exact step_awake_of_not_origin hi he hcreates fun s hs hstate => horigin ⟨s, hs, hstate⟩

/-- **Each origin session that owes a shard to an attached peer has a chunk pending**, whose outcome will
drain it again. -/
def WakesUp (e : Engine RsStrategy Wire) : Prop :=
  ∀ c m, ∀ s ∈ e.session? c m, s.state = .origin → ∀ p idx, s.strategy.Owes p idx → e.HasPending c m

/-- **No wake-up is lost** in any run of valid inputs in which no step leaves a session with something to
send and nothing pending, unless it drains it fruitfully. -/
theorem run_wakesUp (hrs : RsCorrect) (localPeer : PeerId) (net : Wire) (delivered : Sink)
    (config : EngineConfig) (clock : Clock) (inputs : List (Input RsStrategy))
    (hvalid : ∀ i ∈ inputs, i.Valid)
    (hrouses : (withConfig localPeer net delivered config clock).EachStep Rouses inputs) :
    WakesUp ((withConfig localPeer net delivered config clock).run inputs) := by
  have hrun := hrouses.run (Q := fun e => e.Stocked
      ∧ (∀ k p, (e.ledger k).Attached p → (e.ledger k).Subscribed p) ∧ ∀ k, (e.ledger k).Awake)
    (fun e i hi hstep hold => ?_) ⟨stocked_withConfig localPeer net delivered config clock, ?_, ?_⟩
  · intro c m s hs horigin p idx howes
    rcases hrun.2.2 (c, m) with hpending | hsettled
    · exact hasPending_iff.mpr hpending
    · exact absurd howes ((hsettled s hs horigin).2 p idx)
  · obtain ⟨hstocked, hattached, hawake⟩ := hold
    refine ⟨hstocked.acts hrs (hvalid i hi) (step_acts i e), fun k p => ?_,
      fun k => hstep.step hrs (hvalid i hi) hstocked (hattached k) (hawake k)⟩
    exact (step_ledger (A := honest) i e k (fun _ => ⟨hvalid i hi, hstocked.factories⟩)
      (fun _ _ _ _ _ _ => trivial) trivial trivial).induct (Q := fun L => L.Attached p → L.Subscribed p)
      (fun hchange => hchange.attached_subscribed trivial) (hattached k p)
  · intro k p hp
    rw [ledger_withConfig] at hp
    cases hp
  · intro k
    rw [ledger_withConfig]
    exact .inr nofun

end Steps

section OneShard

attribute [local instance] oneShard

/-- An engine without sessions rouses them all, unless it publishes one. -/
theorem rouses_of_no_session {e : Engine RsStrategy Wire} {i : Input RsStrategy}
    (hnone : e.channels.toList.all (·.2.sessions.isEmpty))
    (hpublish : ∀ c m strategy preamble, i ≠ .publish c m strategy preamble) : e.Rouses i := by
  have hno : ∀ c m, e.session? c m = none := by
    intro c m
    rw [Option.eq_none_iff_forall_not_mem]
    intro s hs
    obtain ⟨ch, hch, hm⟩ := session?_eq_some.mp hs
    have hempty := List.all_eq_true.mp hnone (c, ch) (ExtTreeMap.mem_toList_iff_getElem?_eq_some.mpr hch)
    rw [ExtTreeMap.isEmpty_iff.mp hempty] at hm
    cases hm
  have hvacuous : ∀ {c m} {Q : Session RsStrategy → Prop}, ∀ s ∈ e.session? c m, Q s := by
    intro c m Q s hs
    rw [hno] at hs
    cases hs
  exact ⟨fun c m strategy preamble hi => absurd hi (hpublish c m strategy preamble),
    fun _ _ _ _ _ => hvacuous, fun _ _ _ _ _ _ _ => hvacuous, fun _ _ _ _ _ => hvacuous⟩

/-- A message is published to two peers, one of which takes no chunk. -/
theorem run_wakesUp_one_refuses :
    (nodeOver refuseChunksToTwo).EachStep Rouses publishToTwo
    ∧ ((nodeOver refuseChunksToTwo).run publishToTwo).net.log.any (!·.accepted)
    ∧ WakesUp ((nodeOver refuseChunksToTwo).run publishToTwo) := by
  have hrouses : (nodeOver refuseChunksToTwo).EachStep Rouses publishToTwo := by
    refine ⟨rouses_of_no_session (by decide +kernel) nofun, rouses_of_no_session (by decide +kernel) nofun,
      rouses_of_no_session (by decide +kernel) nofun, ⟨?_, fun _ _ _ => False.elim, nofun, nofun⟩, trivial⟩
    intro c m strategy preamble hi _ _
    cases hi
    have hcalls : (((nodeOver refuseChunksToTwo).run (publishToTwo.take 3)).drainCalls
        (.publish "c" "m" OneShard.origin (OneShard.preambleBytes OneShard.preamble))).any (fun call =>
          call.2 = ("c", "m")
            && decide (AcceptedSince call.1 (call.1.drainSession "c" "m").2 (IsChunkOf "c" "m"))) = true := by
      decide +kernel
    obtain ⟨call, hcall, hkey⟩ := List.any_eq_true.mp hcalls
    rw [Bool.and_eq_true, decide_eq_true_eq, decide_eq_true_eq] at hkey
    exact ⟨call, hcall, hkey.1, .inr (.inr hkey.2)⟩
  exact ⟨hrouses, by decide +kernel,
    run_wakesUp OneShard.rsCorrect 0 ⟨refuseChunksToTwo, []⟩ ⟨8, [], false⟩ {} ⟨fun n => n, 0⟩ publishToTwo
      publishToTwo_valid hrouses⟩

/-- `PER_PEER_OUTBOUND_QUEUE`. -/
def perPeerOutboundQueue : Nat := 256

/-- Bounded queues that nothing was taken from yet: a peer's queue takes a message unless it is full of
messages accepted before. -/
def fullQueues (log : List Sent) (msg : NetSend) : Except NetError Unit :=
  match msg.destPeer with
  | none => .ok ()
  | some p =>
    -- a log shorter than the queue has not filled it, which spares the count
    if log.length < perPeerOutboundQueue
        ∨ (log.filter fun sent => sent.accepted && sent.msg.destPeer = some p).length < perPeerOutboundQueue then
      .ok ()
    else
      .error (.backpressure p)

/-- The message `01` is published under this id. -/
def publishes (m : MessageId) : Input RsStrategy :=
  .publish "c" m OneShard.origin (OneShard.preambleBytes OneShard.preamble)

/-- The handshake, an announcement and 63 messages leave two places in the queue of peer 1; the last
message has its `SessionOpen` and its routing update accepted, and no chunk. -/
def crowdOut : List (Input RsStrategy) :=
  [.subscribe "c" (rsRelayFactory {} fun _ => 7), .connect 1, .event (.subscribe 1 "c"),
    .subscribe "d" (rsRelayFactory {} fun _ => 7)]
  ++ (List.range 63).map (fun k => publishes (toString k)) ++ [publishes "m"]

/-- Other sessions and control frames fill the queue, and the last message owes its shards with no chunk
pending. -/
theorem run_not_wakesUp :
    (∀ i ∈ crowdOut, i.Valid) ∧ ¬ WakesUp ((nodeOver fullQueues).run crowdOut) := by
  have hpublishes : ∀ m, (publishes m).Valid := fun m => ⟨[1], OneShard.config, 7, OneShard.newOrigin_eq⟩
  refine ⟨?_, fun h => ?_⟩
  · simp only [crowdOut, List.forall_mem_append, List.forall_mem_cons, List.forall_mem_map, List.not_mem_nil,
      false_implies, implies_true, and_true, hpublishes]
    exact ⟨⟨{}, _, rfl⟩, trivial, trivial, {}, _, rfl⟩
  have hasleep : (((nodeOver fullQueues).run crowdOut).session? "c" "m").any (fun s =>
      s.state = .origin && 1 ∈ s.strategy.attachedPeers && 0 < s.strategy.totalShards
        && 0 ∉ s.strategy.planner.inFlightTo 1
        && (s.strategy.planner.peerState 1).optimisticHavelist.all (!·.get 0)
        && ((nodeOver fullQueues).run crowdOut).pendingSends.keys.all
          fun k => !(k.1 = "c" && k.2.1 = "m")) = true := by decide +kernel
  obtain ⟨s, hs, hasleep⟩ := (Option.any_eq_true _ _).mp hasleep
  simp only [Bool.and_eq_true, decide_eq_true_eq] at hasleep
  obtain ⟨⟨⟨⟨⟨horigin, hattached⟩, hlt⟩, hfree⟩, hnot⟩, hnone⟩ := hasleep
  have howes : s.strategy.Owes 1 0 := by
    refine ⟨hattached, hlt, hfree, fun ⟨b, hb, hget⟩ => ?_⟩
    rw [Option.mem_def.mp hb] at hnot
    simp [hget] at hnot
  obtain ⟨token, htoken⟩ := h "c" "m" s hs horigin 1 0 howes
  have hkey := List.all_eq_true.mp hnone _ (ExtTreeMap.mem_keys.mpr htoken)
  simp at hkey

end OneShard

end Engine

end Ethp2p
