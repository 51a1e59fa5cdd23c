/-
# Ethp2p.Failures — what a failed publish leaves behind.

`publish` registers the session in three maps, and only then talks to the transport; nothing it did is
undone when the transport refuses a message.  So a publish fails in two ways.  Either it is turned away
at the door, because the channel is not hosted or the id is taken, and changes nothing; or a `SessionOpen`
or a routing update was refused, and the session is live all the same: the peers that were reached keep
it, what was accepted stays on its way, later drains go on with it, and publishing it again is refused
as a duplicate (`publish_error`).

What the accepted messages leave in `opened_to` and `pending_sends` is said once for every drain
(`DrainStepsIf.records`).
-/
import Ethp2p.Isolation
import Ethp2p.Parking
import Ethp2p.Publishing

namespace Ethp2p

open Std

namespace Engine

/-! ## The records of a drain -/

/-- A message with `P` was submitted since an earlier state, and accepted. -/
def AcceptedSince (e e' : Engine RsStrategy Wire) (P : NetSend → Prop) : Prop :=
  ∃ sent ∈ e'.net.log.drop e.net.log.length, sent.accepted ∧ P sent.msg

/-- The message opens the session of a key to the peer. -/
def OpensTo (c : ChannelId) (m : MessageId) (p : PeerId) (msg : NetSend) : Prop :=
  ∃ preamble update, msg = .sessionOpen p c m preamble update

/-- The message is a chunk of the key, submitted under the handle. -/
def CarriesToken (c : ChannelId) (m : MessageId) (k : DispatchHandle) (msg : NetSend) : Prop :=
  ∃ p chunkId payload, msg = .chunk p c m chunkId payload k

section Records

variable [Crates] {P : Session RsStrategy → Prop} {c : ChannelId} {m : MessageId}
  {e e' e'' : Engine RsStrategy Wire} {Q : NetSend → Prop}

omit [Crates] in
theorem acceptedSince_of_log (h : e''.net.log = e'.net.log) :
    AcceptedSince e e'' Q ↔ AcceptedSince e e' Q := by
  rw [AcceptedSince, AcceptedSince, h]

omit [Crates] in
theorem not_acceptedSince_refl : ¬ AcceptedSince e e Q := by
  simp [AcceptedSince]

omit [Crates] in
/-- What was accepted, after one more submission. -/
theorem acceptedSince_snoc {msg : NetSend} {r : Except NetError Unit} (hlog : e.net.log <+: e'.net.log)
    (h : e''.net.log = e'.net.log ++ [⟨msg, r⟩]) :
    AcceptedSince e e'' Q ↔ AcceptedSince e e' Q ∨ Sent.accepted ⟨msg, r⟩ ∧ Q msg := by
  rw [AcceptedSince, AcceptedSince, h, List.drop_append_of_le_length hlog.length_le]
  simp only [List.mem_append, List.mem_singleton, or_and_right, exists_or, exists_eq_left]

/-- What a drain from `e` has recorded in `e'`: the session counts as opened to the peers whose opens were
accepted, and a handle is pending for every chunk that was. -/
structure Records (c : ChannelId) (m : MessageId) (e e' : Engine RsStrategy Wire) : Prop where
  log : e.net.log <+: e'.net.log
  opened : ∀ p, e'.openedTo[(c, m)]?.any (p ∈ ·)
    ↔ e.openedTo[(c, m)]?.any (p ∈ ·) ∨ AcceptedSince e e' (OpensTo c m p)
  pending : ∀ k : DispatchHandle, (c, m, k) ∈ e'.pendingSends
    ↔ (c, m, k) ∈ e.pendingSends ∨ AcceptedSince e e' (CarriesToken c m k)

omit [Crates] in
/-- Nothing was accepted yet, and so nothing is recorded. -/
theorem Records.refl (e : Engine RsStrategy Wire) : Records c m e e :=
  ⟨List.prefix_rfl, fun _ => (or_iff_left not_acceptedSince_refl).symm,
    fun _ => (or_iff_left not_acceptedSince_refl).symm⟩

omit [Crates] in
/-- A step that submits nothing and keeps the two maps. -/
theorem Records.of_same (h : Records c m e e') (hlog : e''.net.log = e'.net.log)
    (hopened : e''.openedTo = e'.openedTo) (hpending : e''.pendingSends = e'.pendingSends) :
    Records c m e e'' := by
  refine ⟨hlog ▸ h.log, fun p => ?_, fun k => ?_⟩
  · rw [hopened, h.opened, acceptedSince_of_log hlog]
  · rw [hpending, h.pending, acceptedSince_of_log hlog]

omit [Crates] in
/-- A step that submits one message. -/
theorem Records.of_send (h : Records c m e e') {msg : NetSend} {r : Except NetError Unit}
    (hlog : e''.net.log = e'.net.log ++ [⟨msg, r⟩])
    (hopened : ∀ p, e''.openedTo[(c, m)]?.any (p ∈ ·)
      ↔ e'.openedTo[(c, m)]?.any (p ∈ ·) ∨ Sent.accepted ⟨msg, r⟩ ∧ OpensTo c m p msg)
    (hpending : ∀ k : DispatchHandle, (c, m, k) ∈ e''.pendingSends
      ↔ (c, m, k) ∈ e'.pendingSends ∨ Sent.accepted ⟨msg, r⟩ ∧ CarriesToken c m k msg) :
    Records c m e e'' := by
  refine ⟨h.log.trans ⟨_, hlog.symm⟩, fun p => ?_, fun k => ?_⟩
  · rw [hopened, h.opened, acceptedSince_snoc h.log hlog, or_assoc]
  · rw [hpending, h.pending, acceptedSince_snoc h.log hlog, or_assoc]

/-- **A step of a drain records what was accepted**, and nothing else. -/
theorem DrainStepIf.records (hstep : DrainStepIf P c m e' e'') (h : Records c m e e') :
    Records c m e e'' := by
  cases hstep with
  | polled => exact h.of_same rfl rfl rfl
  | openRefused hnew hpre hsend hto =>
    exact h.of_send (log_send hsend) (by simp [Sent.accepted, Except.isOk, Except.toBool])
      (by simp [Sent.accepted, Except.isOk, Except.toBool])
  | @opened peer preamble net hnew hpre hsend hto =>
    refine h.of_send (log_send hsend) (fun p => ?_) fun k => ?_
    · rw [BTreeMap.get_alter, if_pos rfl]
      cases e'.openedTo[(c, m)]? <;>
        simp [OpensTo, Sent.accepted, Except.isOk, Except.toBool, or_comm]
    · simp [CarriesToken]
  | @routed peer payload answer net hsend hlive hto hopen =>
    exact h.of_send (log_send hsend) (by simp [OpensTo]) (by simp [CarriesToken])
  | @chunkAccepted d net hd hsend hopen =>
    refine h.of_send (log_send hsend) (by simp [OpensTo]) fun k => ?_
    simp [CarriesToken, Sent.accepted, Except.isOk, Except.toBool, or_comm]
  | @chunkRefused d err net hd hsend hopen =>
    exact h.of_send (log_send hsend) (by simp [OpensTo, Engine.modifySession])
      (by simp [Sent.accepted, Except.isOk, Except.toBool, Engine.modifySession])

/-- **The records of a drain.** -/
theorem DrainStepsIf.records (h : DrainStepsIf P c m e e') : Records c m e e' :=
  h.induct (fun hstep => hstep.records) (.refl e)

end Records

/-! ## Why a publish fails -/

section Failures

variable [Crates] {c : ChannelId} {m : MessageId} {e e' : Engine RsStrategy Wire} {err : EngineError}

omit [Crates] in
/-- Opening a session stops at a `SessionOpen` that was refused. -/
theorem openEach_error {peers : List PeerId} (h : openEach c m peers e = (.error err, e')) :
    ControlRefused e e' := by
  induction peers generalizing e with
  | nil => cases h
  | cons peer peers ih =>
    have hopen := ensureSessionOpen_log e c m peer
    unfold openEach at h
    rcases hr : e.ensureSessionOpen c m peer with ⟨err' | _, e₁⟩ <;> rw [hr] at h hopen
    · cases h
      exact ensureSessionOpen_error hr
    · exact (ih h).of_earlier hopen

/-- A drain stops at a control message that was refused. -/
theorem drainLoop_error {fuel : Nat} (h : drainLoop c m fuel e = (some (.error err), e')) :
    ControlRefused e e' := by
  induction fuel generalizing e with
  | zero => cases h
  | succ fuel ih =>
    have hlog := (drainRound_steps e c m).log
    have hround : (e.drainRound c m).1 = some (.error err) → ControlRefused e (e.drainRound c m).2 :=
      drainRound_error
    unfold drainLoop at h
    rcases hr : e.drainRound c m with ⟨_ | r, e₁⟩ <;> rw [hr] at h hlog hround
    · exact (ih h).of_earlier hlog
    · cases h
      exact hround rfl

/-- A drain fails when a `SessionOpen` or a routing update is refused. -/
theorem drainSession_error (h : e.drainSession c m = (.error err, e')) : ControlRefused e e' := by
  unfold drainSession at h
  rcases hr : drainLoop c m (e.drainFuel c m) e with ⟨_ | r, e₁⟩ <;> rw [hr] at h <;> cases h
  exact drainLoop_error hr

/-! ## What it leaves -/

/-- Away from a key, the five maps of the sessions are what they were. -/
structure SameElsewhere (c : ChannelId) (m : MessageId) (e e' : Engine RsStrategy Wire) : Prop where
  subscribers_eq : ∀ c' : ChannelId,
    e'.channels[c']?.map Channel.subscribers = e.channels[c']?.map Channel.subscribers
  factory_eq : ∀ c' : ChannelId, e'.channels[c']?.map Channel.factory = e.channels[c']?.map Channel.factory
  session_eq : ∀ c' m', ¬ (c = c' ∧ m = m') → e'.session? c' m' = e.session? c' m'
  meta_eq : ∀ k : SessionKey, (c, m) ≠ k → e'.sessionMeta[k]? = e.sessionMeta[k]?
  preamble_eq : ∀ k : SessionKey, (c, m) ≠ k → e'.sessionPreambles[k]? = e.sessionPreambles[k]?
  opened_eq : ∀ k : SessionKey, (c, m) ≠ k → e'.openedTo[k]? = e.openedTo[k]?
  pending_eq : ∀ c' m' (k : DispatchHandle), ¬ (c = c' ∧ m = m') →
    e'.pendingSends[(c', m', k)]? = e.pendingSends[(c', m', k)]?

/-- The session is live and registered, with the strategy's chunks and every subscriber attached; the
records are those of the accepted messages; the id is taken. -/
structure StaysPublished (strategy : RsStrategy) (preamble : Bytes) (c : ChannelId) (m : MessageId)
    (e e' : Engine RsStrategy Wire) : Prop where
  session : ∃ s, e'.session? c m = some s ∧ s.state = .origin ∧ strategy.SameStore s.strategy
    ∧ ∀ p ∈ e.subscribersOf c, p ∈ s.strategy.attachedPeers
  created : (c, m) ∈ e'.sessionMeta
  retained : e'.sessionPreambles[(c, m)]? = some preamble
  records : Records c m e e'
  elsewhere : SameElsewhere c m e e'
  taken : ∀ strategy' preamble',
    e'.publish c m strategy' preamble' = (.error (.channel (.duplicateSession m)), e')

/-- A message that is live is not published again. -/
theorem publish_of_live {s : Session RsStrategy} (hs : e.session? c m = some s) (strategy : RsStrategy)
    (preamble : Bytes) :
    e.publish c m strategy preamble = (.error (.channel (.duplicateSession m)), e) := by
  obtain ⟨ch, hch, hm⟩ := session?_eq_some.mp hs
  have hmem : m ∈ ch.sessions := (BTreeMap.mem_iff_get _ _).mpr ⟨s, hm⟩
  unfold publish
  simp only [hch, Channel.startOriginSession, if_pos hmem]

omit [Crates] in
/-- A created session changes nothing elsewhere. -/
theorem withRelay_sameElsewhere {ch ch' : Channel RsStrategy} {s : Session RsStrategy} {preamble : Bytes}
    (hch : e.channels[c]? = some ch) (hch' : ch' = { ch with sessions := ch.sessions.insert m s }) :
    SameElsewhere c m e (e.withRelay c m preamble ch') := by
  have hsession := fun c' m' => session?_withRelay (c := c') (m := m') preamble hch
    (congrArg Channel.sessions hch')
  have hchannels : ∀ {β} (f : Channel RsStrategy → β), f ch' = f ch →
      ∀ c' : ChannelId, (e.withRelay c m preamble ch').channels[c']?.map f = e.channels[c']?.map f := by
    intro β f hf c'
    rw [withRelay_channels, BTreeMap.get_insert]
    split
    case isTrue hc => rw [← hc, hch, Option.map_some, Option.map_some, hf]
    case isFalse => rfl
  have hmeta : ∀ k : SessionKey, (c, m) ≠ k →
      (e.withRelay c m preamble ch').sessionMeta[k]? = e.sessionMeta[k]? := by
    intro k hk
    unfold withRelay recordSessionCreated
    split
    · rfl
    · exact (BTreeMap.get_insert _ _ _ _).trans (if_neg hk)
  obtain ⟨clock, sessionMeta, heq⟩ := e.withRelay_eq c m preamble ch'
  refine ⟨hchannels _ (by rw [hch']), hchannels _ (by rw [hch']), fun c' m' hne => ?_, hmeta,
    fun k hk => ?_, fun k hk => ?_, fun c' m' k hne => ?_⟩
  · rw [hsession, if_neg hne]
  · rw [heq, BTreeMap.get_insert, if_neg hk]
  · rw [heq]
  · rw [heq]

omit [Crates] in
/-- A drain changes nothing elsewhere. -/
theorem SameElsewhere.drained {e₁ : Engine RsStrategy Wire} (h : SameElsewhere c m e e₁)
    (hframe : DrainFrame c m e₁ e') : SameElsewhere c m e e' where
  subscribers_eq c' := (hframe.subscribers_eq c').trans (h.subscribers_eq c')
  factory_eq c' := (hframe.factory_eq c').trans (h.factory_eq c')
  session_eq c' m' hne := (hframe.session_ne c' m' hne).trans (h.session_eq c' m' hne)
  meta_eq k hk := (congrArg (·[k]?) hframe.sessionMeta_eq).trans (h.meta_eq k hk)
  preamble_eq k hk := (congrArg (·[k]?) hframe.sessionPreambles_eq).trans (h.preamble_eq k hk)
  opened_eq k hk :=
    (hframe.opened_ne k.1 k.2 fun hkey => hk (Prod.ext hkey.1 hkey.2)).trans (h.opened_eq k hk)
  pending_eq c' m' k hne := (hframe.pending_ne c' m' k hne).trans (h.pending_eq c' m' k hne)

/-- The subscribers of its channel are attached to a created session. -/
theorem mem_attachAll {ch : Channel RsStrategy} (s : Session RsStrategy) {p : PeerId}
    (hp : p ∈ ch.subscribers.toList) : p ∈ (ch.attachAll s).strategy.attachedPeers := by
  obtain ⟨attachedPeers, heq, hmem⟩ := RsStrategy.attachEach_eq ch.subscribers.toList s.strategy
  rw [ch.attachAll_eq, heq]
  exact (hmem p).mpr (.inl hp)

/-- A started session, however far the publish and its drain then got. -/
theorem staysPublished {ch ch' : Channel RsStrategy} {strategy : RsStrategy} {preamble : Bytes}
    (hch : e.channels[c]? = some ch) (hstart : ch.startOriginSession m strategy = (.ok (), ch'))
    (hsteps : DrainSteps c m (e.withRelay c m preamble ch') e') :
    StaysPublished strategy preamble c m e e' := by
  obtain ⟨hm, rfl⟩ := Channel.startOriginSession_ok hstart
  obtain ⟨clock, sessionMeta, heq⟩ := e.withRelay_eq c m preamble { ch with
    sessions := ch.sessions.insert m (ch.attachAll (Session.newOrigin strategy)) }
  have hcreated := session?_withRelay (c := c) (m := m) preamble hch
    (rfl : Channel.sessions { ch with
      sessions := ch.sessions.insert m (ch.attachAll (Session.newOrigin strategy)) } = _)
  rw [if_pos ⟨rfl, rfl⟩] at hcreated
  obtain ⟨s, hs, hstate, hstore, hattached⟩ := hsteps.session hcreated
  have halike := ch.attachAll_alike (Session.newOrigin strategy)
  have hframe := hsteps.frame
  refine {
    -- the session lives on, with its shards and its subscribers
    session := ⟨s, hs, hstate.trans halike.state_eq, halike.store.trans hstore, fun p hp => ?_⟩
    created := ?_
    retained := ?_
    records := ?_
    elsewhere := (withRelay_sameElsewhere hch rfl).drained hframe
    taken := publish_of_live hs }
  · rw [hattached]
    refine mem_attachAll _ ?_
    rwa [subscribersOf, hch] at hp
  · rw [hframe.sessionMeta_eq]
    -- the record was there already, or it is made
    unfold withRelay recordSessionCreated
    split
    case isTrue hmeta => exact hmeta
    case isFalse => exact (BTreeMap.mem_iff_get _ _).mpr ⟨_, (BTreeMap.get_insert _ _ _ _).trans (if_pos rfl)⟩
  · rw [hframe.sessionPreambles_eq, heq, BTreeMap.get_insert, if_pos rfl]
  · refine hsteps.induct (fun hstep => hstep.records) ?_
    rw [heq]
    exact (Records.refl e).of_same rfl rfl rfl

/-- **A failed publish.**  Either it was turned away, because the channel is not hosted or the id is taken,
and changed nothing; or a `SessionOpen` or routing update was refused, and the session stays. -/
theorem publish_error (e : Engine RsStrategy Wire) (c : ChannelId) (m : MessageId) (strategy : RsStrategy)
    (preamble : Bytes) (h : (e.publish c m strategy preamble).1 = .error err) :
    ((err = .unknownChannel c ∧ c ∉ e.channels
        ∨ err = .channel (.duplicateSession m) ∧ (e.session? c m).isSome)
      ∧ (e.publish c m strategy preamble).2 = e)
    ∨ c ∈ e.channels ∧ e.session? c m = none
      ∧ ControlRefused e (e.publish c m strategy preamble).2
      ∧ StaysPublished strategy preamble c m e (e.publish c m strategy preamble).2 := by
  cases hch : e.channels[c]? with
  | none =>
    unfold publish at h ⊢
    simp only [hch] at h ⊢
    cases h
    exact .inl ⟨.inl ⟨rfl, BTreeMap.not_mem_of_get hch⟩, trivial⟩
  | some ch =>
    rcases hstart : ch.startOriginSession m strategy with ⟨err' | _, ch'⟩
    -- the message is live: nothing has happened
    · have hm : m ∈ ch.sessions ∧ err' = .duplicateSession m := by
        unfold Channel.startOriginSession at hstart
        split at hstart <;> cases hstart
        exact ⟨‹_›, rfl⟩
      obtain ⟨hm, rfl⟩ := hm
      obtain ⟨s, hs⟩ := (BTreeMap.mem_iff_get _ _).mp hm
      have hlive : e.session? c m = some s := session?_eq_some.mpr ⟨ch, hch, hs⟩
      rw [publish_of_live hlive] at h ⊢
      cases h
      exact .inl ⟨.inr ⟨rfl, by rw [hlive]; rfl⟩, rfl⟩
    · obtain ⟨hm, hch'⟩ := Channel.startOriginSession_ok hstart
      have hnone := session?_eq_none_of_not_mem hch hm
      have hopens := openEach_steps c m ch'.subscribers.toList (e.withRelay c m preamble ch')
        fun p hp => by rwa [subscribersOf_withRelay]
      have hlog : (e.withRelay c m preamble ch').net.log = e.net.log := by
        obtain ⟨clock, sessionMeta, heq⟩ := e.withRelay_eq c m preamble ch'
        rw [heq]
      have hpublish := publish_of_start hch hstart preamble
      refine .inr ⟨(BTreeMap.mem_iff_get _ _).mpr ⟨ch, hch⟩, hnone, ?_⟩
      rcases hr : openEach c m ch'.subscribers.toList (e.withRelay c m preamble ch') with ⟨err' | _, e₁⟩ <;>
        rw [hr] at hpublish hopens
      · rw [hpublish]
        -- the publish stopped while it opened the session
        exact ⟨(openEach_error hr).of_earlier (hlog ▸ List.prefix_rfl), staysPublished hch hstart hopens⟩
      · have hdrain := drainSession_steps e₁ c m
        replace hpublish : e.publish c m strategy preamble = e₁.drainSession c m := hpublish
        rw [hpublish] at h ⊢
        rcases hd : e₁.drainSession c m with ⟨err' | _, e₂⟩ <;> rw [hd] at h hdrain
        -- the publish stopped in its drain
        · have hrefused := (drainSession_error hd).of_earlier (hlog ▸ hopens.log)
          exact ⟨hrefused, staysPublished hch hstart (hopens.trans hdrain)⟩
        · cases h

end Failures

section OneShard

attribute [local instance] oneShard

/-- Every `SessionOpen` to peer 2 is refused. -/
def refuseOpensToTwo (_ : List Sent) : NetSend → Except NetError Unit
  | .sessionOpen 2 .. => .error (.backpressure 2)
  | _ => .ok ()

/-- The publish fails at the second subscriber. -/
theorem publish_error_second_refuses :
    (((nodeOver refuseOpensToTwo).run subscribeTwo).publish "c" "m" OneShard.origin
      (OneShard.preambleBytes OneShard.preamble)).1 = .error (.net (.backpressure 2))
    ∧ StaysPublished OneShard.origin (OneShard.preambleBytes OneShard.preamble) "c" "m"
      ((nodeOver refuseOpensToTwo).run subscribeTwo)
      (((nodeOver refuseOpensToTwo).run subscribeTwo).publish "c" "m" OneShard.origin
        (OneShard.preambleBytes OneShard.preamble)).2 := by
  have herr : (((nodeOver refuseOpensToTwo).run subscribeTwo).publish "c" "m" OneShard.origin
      (OneShard.preambleBytes OneShard.preamble)).1 = .error (.net (.backpressure 2)) := by
    decide +kernel
  refine ⟨herr, ?_⟩
  rcases publish_error _ _ _ _ _ herr with ⟨⟨h, -⟩ | ⟨h, -⟩, -⟩ | ⟨-, -, -, hstays⟩
  · cases h
  · cases h
  · exact hstays

/-- The failed publish leaves its session, its preamble, its creation time and an opened peer; published
once more, it is a duplicate. -/
theorem publish_not_undone :
    let e := (nodeOver refuseOpensToTwo).run subscribeTwo
    let failed := e.publish "c" "m" OneShard.origin (OneShard.preambleBytes OneShard.preamble)
    failed.1 = .error (.net (.backpressure 2))
    ∧ (e.session? "c" "m").isNone ∧ (failed.2.session? "c" "m").isSome
    ∧ ("c", "m") ∉ e.sessionMeta ∧ ("c", "m") ∈ failed.2.sessionMeta
    ∧ ("c", "m") ∉ e.sessionPreambles ∧ ("c", "m") ∈ failed.2.sessionPreambles
    ∧ ("c", "m") ∉ e.openedTo ∧ ("c", "m") ∈ failed.2.openedTo
    ∧ (failed.2.publish "c" "m" OneShard.origin (OneShard.preambleBytes OneShard.preamble)).1
      = .error (.channel (.duplicateSession "m")) := by
  decide +kernel

end OneShard

end Engine

end Ethp2p
