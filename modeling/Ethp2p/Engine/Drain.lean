/-
# Ethp2p.Engine.Drain — everything a drain can do, said once.

`drain_session` is the engine's busiest function: it polls, opens sessions, routes, dispatches, and
leaves through six different exits.  Instead of splitting its branches in every proof, `DrainStepIf`
lists the six atomic state changes it is made of, each with its guard, and `drainSession_stepsIf`
shows that a whole drain is a sequence of them.  An invariant of the atomic changes is then an
invariant of every drain (`DrainStepsIf.induct`).  `BatchStep` lists them once more, with the batch of
dispatches that is polled and not submitted yet, for invariants that count what is on its way.

The parameter `P` says what is known of the sessions the drain polls; `DrainSteps` is the relation
with nothing said about them.

The first part reads a session back after the engine's session updates.
-/
import Ethp2p.Engine
import Ethp2p.Strategy.Rs.StateSpec

namespace Ethp2p

namespace Engine

/-! ## Reading the sessions -/

section Views

variable {S N : Type}

/-- A session is found in its channel. -/
theorem session?_eq_some {e : Engine S N} {c : ChannelId} {m : MessageId} {s : Session S} :
    e.session? c m = some s ↔ ∃ ch, e.channels[c]? = some ch ∧ ch.sessions[m]? = some s := by
  simp only [session?, Option.bind_eq_some_iff]

/-- An update of one session is seen under its key only. -/
theorem session?_modifySession (e : Engine S N) (c c' : ChannelId) (m m' : MessageId)
    (f : Session S → Session S) :
    (e.modifySession c m f).session? c' m'
      = if c = c' ∧ m = m' then (e.session? c m).map f else e.session? c' m' := by
  simp only [session?, modifySession, BTreeMap.get_modify]
  by_cases hc : c = c'
  · subst hc
    cases hch : e.channels[c]? with
    | none => simp
    | some ch =>
      by_cases hm : m = m'
      · subst hm
        simp
      · simp [BTreeMap.get_modify, hm]
  · simp [hc]

theorem session?_modifySession_self (e : Engine S N) (c : ChannelId) (m : MessageId)
    (f : Session S → Session S) :
    (e.modifySession c m f).session? c m = (e.session? c m).map f := by
  simp [session?_modifySession]

/-- A live session stays live when it is updated. -/
theorem isSome_modifySession {e : Engine S N} {c : ChannelId} {m : MessageId} {s : Session S}
    (hs : e.session? c m = some s) (f : Session S → Session S) :
    ((e.modifySession c m f).session? c m).isSome := by
  rw [session?_modifySession_self, hs]
  rfl

/-- Updating a session touches no channel but its own, and there only that session. -/
theorem channels_modifySession (e : Engine S N) (c c' : ChannelId) (m : MessageId)
    (f : Session S → Session S) :
    (e.modifySession c m f).channels[c']?
      = if c = c' then e.channels[c]?.map fun ch => { ch with sessions := ch.sessions.modify m f }
        else e.channels[c']? := by
  simp only [modifySession, BTreeMap.get_modify]

/-- An update of a session leaves its channel's subscribers. -/
theorem subscribersOf_modifySession (e : Engine S N) (c : ChannelId) (m : MessageId)
    (f : Session S → Session S) : (e.modifySession c m f).subscribersOf c = e.subscribersOf c := by
  simp only [subscribersOf, channels_modifySession]
  cases e.channels[c]? <;> simp

/-- An update by the identity is none. -/
theorem channels_modifySession_id (e : Engine S N) (c : ChannelId) (m : MessageId) :
    (e.modifySession c m id).channels = e.channels := by
  have hsessions : ∀ ch : Channel S, ch.sessions.modify m id = ch.sessions := by
    intro ch
    refine Std.ExtTreeMap.ext_getElem? fun m' => ?_
    rw [BTreeMap.get_modify]
    split
    case isTrue hm => simp [hm]
    case isFalse => rfl
  refine Std.ExtTreeMap.ext_getElem? fun c' => ?_
  rw [channels_modifySession]
  split
  case isTrue hc => simp [hsessions, hc]
  case isFalse => rfl

end Views

/-! ## The atomic changes of a drain -/

/-- The states in which the drain loop polls. -/
def drainRounds {S N E : Type} [Net N] [Strategy S Nat BitMap E] (c : ChannelId) (m : MessageId) :
    Nat → Engine S N → List (Engine S N)
  | 0, _ => []
  | fuel + 1, e =>
    e :: match e.drainRound c m with
      | (some _, _) => []
      | (none, e) => drainRounds c m fuel e

section Drain

variable [Crates] {N : Type} [Net N]

/-- The dispatch carries a chunk that the session stores, to a peer attached to it, and is in flight
under its handle. -/
def Backed (e : Engine RsStrategy N) (c : ChannelId) (m : MessageId) (d : ChunkDispatch Nat) :
    Prop :=
  ∃ session, e.session? c m = some session ∧ session.strategy.chunkAt d.chunkId = some d.payload
    ∧ d.peer ∈ session.strategy.attachedPeers
    ∧ session.strategy.inFlight[d.handle]? = some (d.peer, d.chunkId)

/-- The session was opened to the peer, or there is no preamble to open it with. -/
def Opened (e : Engine RsStrategy N) (c : ChannelId) (m : MessageId) (peer : PeerId) : Prop :=
  e.openedTo[(c, m)]?.any (peer ∈ ·) ∨ e.sessionPreambles[(c, m)]? = none

/-- The peer subscribes to the channel or is attached to the session. -/
def Target (e : Engine RsStrategy N) (c : ChannelId) (m : MessageId) (peer : PeerId) : Prop :=
  peer ∈ e.subscribersOf c
    ∨ ∃ session, e.session? c m = some session ∧ peer ∈ session.strategy.attachedPeers

/-- One atomic change of a drain of `(c, m)` that only polls sessions with `P`. -/
inductive DrainStepIf (P : Session RsStrategy → Prop) (c : ChannelId) (m : MessageId) :
    Engine RsStrategy N → Engine RsStrategy N → Prop
  /-- A `SessionOpen` was refused. -/
  | openRefused {e : Engine RsStrategy N} {peer preamble err net}
      (hnew : ¬ e.openedTo[(c, m)]?.any (peer ∈ ·))
      (hpre : e.sessionPreambles[(c, m)]? = some preamble)
      (hsend : Net.send e.net (.sessionOpen peer c m preamble []) = (.error err, net))
      (hto : Target e c m peer) :
      DrainStepIf P c m e { e with net }
  /-- A `SessionOpen` was accepted and remembered. -/
  | opened {e : Engine RsStrategy N} {peer preamble net}
      (hnew : ¬ e.openedTo[(c, m)]?.any (peer ∈ ·))
      (hpre : e.sessionPreambles[(c, m)]? = some preamble)
      (hsend : Net.send e.net (.sessionOpen peer c m preamble []) = (.ok (), net))
      (hto : Target e c m peer) :
      DrainStepIf P c m e { e with
        net
        openedTo := e.openedTo.alter (c, m) fun s => some ((s.getD ∅).insert peer) }
  /-- A routing update was submitted. -/
  | routed {e : Engine RsStrategy N} {peer payload answer net}
      (hsend : Net.send e.net (.routingUpdate peer c m payload) = (answer, net))
      (hlive : (e.session? c m).isSome) (hto : peer ∈ e.subscribersOf c) (hopen : Opened e c m peer) :
      DrainStepIf P c m e { e with net }
  /-- The session was polled. -/
  | polled {e : Engine RsStrategy N} {session}
      (hsession : e.session? c m = some session) (hP : P session) :
      DrainStepIf P c m e (e.modifySession c m fun _ => session.poll.2)
  /-- A chunk was accepted; its outcome is pending. -/
  | chunkAccepted {e : Engine RsStrategy N} {d net} (hd : Backed e c m d)
      (hsend : Net.send e.net (.chunk d.peer c m d.chunkId d.payload d.handle) = (.ok (), net))
      (hopen : Opened e c m d.peer) :
      DrainStepIf P c m e { e with
        net
        pendingSends := e.pendingSends.insert (c, m, d.handle) d.peer }
  /-- A chunk was refused and refunded. -/
  | chunkRefused {e : Engine RsStrategy N} {d err net} (hd : Backed e c m d)
      (hsend : Net.send e.net (.chunk d.peer c m d.chunkId d.payload d.handle) = (.error err, net))
      (hopen : Opened e c m d.peer) :
      DrainStepIf P c m e ({ e with net }.modifySession c m (·.chunkSent d.peer d.handle false))

/-- A sequence of atomic changes. -/
abbrev DrainStepsIf (P : Session RsStrategy → Prop) (c : ChannelId) (m : MessageId) :
    Engine RsStrategy N → Engine RsStrategy N → Prop :=
  Relation.ReflTransGen (DrainStepIf P c m)

/-- A sequence of atomic changes of a drain. -/
abbrev DrainSteps (c : ChannelId) (m : MessageId) :
    Engine RsStrategy N → Engine RsStrategy N → Prop :=
  DrainStepsIf (fun _ => True) c m

/-- One atomic change of a drain that submits a control message: an open or a routing update. -/
inductive ControlStep (c : ChannelId) (m : MessageId) :
    Engine RsStrategy N → Engine RsStrategy N → Prop
  | openRefused {e : Engine RsStrategy N} {peer preamble err net}
      (hnew : ¬ e.openedTo[(c, m)]?.any (peer ∈ ·))
      (hpre : e.sessionPreambles[(c, m)]? = some preamble)
      (hsend : Net.send e.net (.sessionOpen peer c m preamble []) = (.error err, net))
      (hto : Target e c m peer) :
      ControlStep c m e { e with net }
  | opened {e : Engine RsStrategy N} {peer preamble net}
      (hnew : ¬ e.openedTo[(c, m)]?.any (peer ∈ ·))
      (hpre : e.sessionPreambles[(c, m)]? = some preamble)
      (hsend : Net.send e.net (.sessionOpen peer c m preamble []) = (.ok (), net))
      (hto : Target e c m peer) :
      ControlStep c m e { e with
        net
        openedTo := e.openedTo.alter (c, m) fun s => some ((s.getD ∅).insert peer) }
  | routed {e : Engine RsStrategy N} {peer payload answer net}
      (hsend : Net.send e.net (.routingUpdate peer c m payload) = (answer, net))
      (hlive : (e.session? c m).isSome) (hto : peer ∈ e.subscribersOf c) (hopen : Opened e c m peer) :
      ControlStep c m e { e with net }

/-- A sequence of control messages. -/
abbrev ControlSteps (c : ChannelId) (m : MessageId) :
    Engine RsStrategy N → Engine RsStrategy N → Prop :=
  Relation.ReflTransGen (ControlStep c m)

/-- One atomic change of a drain, with the batch that is polled and not submitted yet: a poll fills it,
a submitted chunk leaves it in order, and an early exit abandons the rest. -/
inductive BatchStep (P : Session RsStrategy → Prop) (c : ChannelId) (m : MessageId) :
    List (ChunkDispatch Nat) × Engine RsStrategy N → List (ChunkDispatch Nat) × Engine RsStrategy N →
    Prop
  | control {b} {e e' : Engine RsStrategy N} (h : ControlStep c m e e') : BatchStep P c m (b, e) (b, e')
  | polled {e : Engine RsStrategy N} {session}
      (hsession : e.session? c m = some session) (hP : P session) :
      BatchStep P c m ([], e)
        (session.poll.1.dispatches, e.modifySession c m fun _ => session.poll.2)
  | chunkAccepted {b} {e : Engine RsStrategy N} {d net} (hd : Backed e c m d)
      (hsend : Net.send e.net (.chunk d.peer c m d.chunkId d.payload d.handle) = (.ok (), net))
      (hopen : Opened e c m d.peer) :
      BatchStep P c m (d :: b, e) (b, { e with
        net
        pendingSends := e.pendingSends.insert (c, m, d.handle) d.peer })
  | chunkRefused {b} {e : Engine RsStrategy N} {d err net} (hd : Backed e c m d)
      (hsend : Net.send e.net (.chunk d.peer c m d.chunkId d.payload d.handle) = (.error err, net))
      (hopen : Opened e c m d.peer) :
      BatchStep P c m (d :: b, e)
        (b, { e with net }.modifySession c m (·.chunkSent d.peer d.handle false))
  | abandoned {b} {e : Engine RsStrategy N} : BatchStep P c m (b, e) ([], e)

/-- A sequence of atomic changes, with the batch. -/
abbrev BatchSteps (P : Session RsStrategy → Prop) (c : ChannelId) (m : MessageId) :
    List (ChunkDispatch Nat) × Engine RsStrategy N → List (ChunkDispatch Nat) × Engine RsStrategy N →
    Prop :=
  Relation.ReflTransGen (BatchStep P c m)

variable {P : Session RsStrategy → Prop} {c : ChannelId} {m : MessageId} {e e' : Engine RsStrategy N}

/-- Control messages are steps of a drain. -/
theorem ControlSteps.stepsIf (h : ControlSteps c m e e') : DrainStepsIf P c m e e' := by
  induction h with
  | refl => exact .refl
  | tail _ hstep ih =>
    refine ih.tail ?_
    cases hstep with
    | openRefused hnew hpre hsend hto => exact .openRefused hnew hpre hsend hto
    | opened hnew hpre hsend hto => exact .opened hnew hpre hsend hto
    | routed hsend hlive hto hopen => exact .routed hsend hlive hto hopen

/-- Control messages leave the batch as it is. -/
theorem ControlSteps.batch (h : ControlSteps c m e e') (b : List (ChunkDispatch Nat)) :
    BatchSteps P c m (b, e) (b, e') :=
  h.lift (b, ·) fun _ _ h => .control h

/-- Without its batch, a sequence of atomic changes is one all the same. -/
theorem BatchSteps.stepsIf {x y : List (ChunkDispatch Nat) × Engine RsStrategy N}
    (h : BatchSteps P c m x y) : DrainStepsIf P c m x.2 y.2 := by
  induction h with
  | refl => exact .refl
  | tail _ hstep ih =>
    refine ih.trans ?_
    cases hstep with
    | control h => exact ControlSteps.stepsIf (.single h)
    | polled hsession hP => exact .single (.polled hsession hP)
    | chunkAccepted hd hsend hopen => exact .single (.chunkAccepted hd hsend hopen)
    | chunkRefused hd hsend hopen => exact .single (.chunkRefused hd hsend hopen)
    | abandoned => exact .refl

/-- The chunk store and the attached peers of the drained session stay what they are. -/
theorem DrainStepIf.session (h : DrainStepIf P c m e e') {s : Session RsStrategy}
    (hs : e.session? c m = some s) :
    ∃ s', e'.session? c m = some s' ∧ s'.state = s.state
      ∧ s.strategy.SameStore s'.strategy ∧ s'.strategy.attachedPeers = s.strategy.attachedPeers := by
  cases h with
  | openRefused | opened | routed | chunkAccepted => exact ⟨s, hs, rfl, .refl _, rfl⟩
  | polled hsession =>
    obtain rfl := Option.some.inj (hs.symm.trans hsession)
    refine ⟨s.poll.2, by simp [session?_modifySession_self, hs], rfl, s.strategy.poll_sameStore, ?_⟩
    have h1 := (s.strategy.pollRouting false).2.pollChunks_spec.attachedPeers_eq
    rcases s.strategy.pollRouting_cases false with hr | hr <;> rw [hr] at h1 <;>
      simp [Session.poll, Strategy.pollRouting, Strategy.pollChunks, hr, h1]
  | @chunkRefused d =>
    refine ⟨s.chunkSent d.peer d.handle false, ?_, rfl, s.strategy.chunkSent_sameStore _ _ _,
      s.strategy.chunkSent_attachedPeers _ _ _⟩
    rw [session?_modifySession_self]
    exact congrArg (Option.map _) hs

/-- A drained session keeps its state, its chunks and its peers. -/
theorem DrainStepsIf.session (h : DrainStepsIf P c m e e') {s : Session RsStrategy}
    (hs : e.session? c m = some s) :
    ∃ s', e'.session? c m = some s' ∧ s'.state = s.state
      ∧ s.strategy.SameStore s'.strategy ∧ s'.strategy.attachedPeers = s.strategy.attachedPeers := by
  induction h with
  | refl => exact ⟨s, hs, rfl, .refl _, rfl⟩
  | tail _ hstep ih =>
    obtain ⟨s1, h1, hst1, hstore1, hatt1⟩ := ih
    obtain ⟨s2, h2, hst2, hstore2, hatt2⟩ := hstep.session h1
    exact ⟨s2, h2, hst2.trans hst1, hstore1.trans hstore2, hatt2.trans hatt1⟩

omit [Crates] [Net N] in
/-- Only the session matters to whether a dispatch is backed. -/
theorem Backed.congr {d : ChunkDispatch Nat} (hd : Backed e c m d)
    (h : e'.session? c m = e.session? c m) : Backed e' c m d := by
  obtain ⟨s, hs, hrest⟩ := hd
  exact ⟨s, h.trans hs, hrest⟩

omit [Net N] in
/-- A backed dispatch stays backed when another one is refunded. -/
theorem Backed.refunded {d d' : ChunkDispatch Nat} (hd : Backed e c m d)
    (hne : d'.handle ≠ d.handle) :
    Backed (e.modifySession c m (·.chunkSent d'.peer d'.handle false)) c m d := by
  obtain ⟨s, hs, hchunk, hpeer, hflight⟩ := hd
  refine ⟨s.chunkSent d'.peer d'.handle false, by rw [session?_modifySession_self, hs]; rfl, ?_, ?_, ?_⟩
  · exact ((s.strategy.chunkSent_sameStore _ _ _).chunkAt_eq _).trans hchunk
  · exact (s.strategy.chunkSent_attachedPeers _ _ _).symm ▸ hpeer
  · refine (congrArg (·[d.handle]?) (s.strategy.chunkSent_inFlight d'.peer d'.handle false)).trans ?_
    rw [BTreeMap.get_erase, if_neg hne, hflight]

omit [Crates] [Net N] in
/-- The peer of a backed dispatch is one the session may be opened to. -/
theorem Backed.target {d : ChunkDispatch Nat} (hd : Backed e c m d) : Target e c m d.peer := by
  obtain ⟨s, hs, -, hpeer, -⟩ := hd
  exact .inr ⟨s, hs, hpeer⟩

/-! ## The drain functions are sequences of atomic changes -/

omit [Crates] in
/-- `send` hands the message to the transport and takes its answer. -/
theorem send_eq (e : Engine RsStrategy N) (msg : NetSend) :
    e.send msg = ((Net.send e.net msg).1.mapError .net, { e with net := (Net.send e.net msg).2 }) := by
  unfold send
  rcases Net.send e.net msg with ⟨_ | _, net⟩ <;> rfl

omit [Crates] [Net N] in
theorem session?_congr (h : e'.channels = e.channels) (c : ChannelId) (m : MessageId) :
    e'.session? c m = e.session? c m := by
  rw [session?, session?, h]

omit [Crates] [Net N] in
theorem subscribersOf_congr (h : e'.channels = e.channels) (c : ChannelId) :
    e'.subscribersOf c = e.subscribersOf c := by
  rw [subscribersOf, subscribersOf, h]

omit [Crates] in
/-- Opening a session is a control message, or nothing. -/
theorem ensureSessionOpen_control (e : Engine RsStrategy N) (c : ChannelId) (m : MessageId)
    (peer : PeerId) (hto : Target e c m peer) :
    ControlSteps c m e (e.ensureSessionOpen c m peer).2 := by
  unfold ensureSessionOpen
  by_cases hnew : e.openedTo[(c, m)]?.any (peer ∈ ·)
  · rw [if_pos hnew]
  · rw [if_neg hnew]
    cases hpre : e.sessionPreambles[(c, m)]? with
    | none => exact .refl
    | some preamble =>
      simp only [send_eq]
      rcases hsend : Net.send e.net (.sessionOpen peer c m preamble []) with ⟨err | _, net⟩
      · exact .single (.openRefused hnew hpre hsend hto)
      · exact .single (.opened hnew hpre hsend hto)

theorem ensureSessionOpen_steps (e : Engine RsStrategy N) (c : ChannelId) (m : MessageId)
    (peer : PeerId) (hto : Target e c m peer) :
    DrainSteps c m e (e.ensureSessionOpen c m peer).2 :=
  (ensureSessionOpen_control e c m peer hto).stepsIf

omit [Crates] in
/-- Opening a session to a peer changes no channel and no pending send. -/
theorem ensureSessionOpen_same (e : Engine RsStrategy N) (c : ChannelId) (m : MessageId)
    (peer : PeerId) :
    (e.ensureSessionOpen c m peer).2.channels = e.channels
      ∧ (e.ensureSessionOpen c m peer).2.pendingSends = e.pendingSends := by
  unfold ensureSessionOpen
  split
  · exact ⟨rfl, rfl⟩
  · cases e.sessionPreambles[(c, m)]? with
    | none => exact ⟨rfl, rfl⟩
    | some preamble =>
      simp only [send_eq]
      rcases Net.send e.net (.sessionOpen peer c m preamble []) with ⟨err | _, net⟩ <;>
        exact ⟨rfl, rfl⟩

omit [Crates] in
/-- A call that answers `Ok` has opened the session, or had no preamble. -/
theorem ensureSessionOpen_opened {peer : PeerId} (h : e.ensureSessionOpen c m peer = (.ok (), e')) :
    Opened e' c m peer := by
  unfold ensureSessionOpen at h
  split at h
  case isTrue hopen =>
    cases h
    exact .inl hopen
  case isFalse =>
    cases hpre : e.sessionPreambles[(c, m)]? with
    | none =>
      rw [hpre] at h
      cases h
      exact .inr hpre
    | some preamble =>
      simp only [hpre, send_eq] at h
      rcases hsend : Net.send e.net (.sessionOpen peer c m preamble []) with ⟨err | _, net⟩ <;>
        rw [hsend] at h <;> cases h
      refine .inl ?_
      rw [BTreeMap.get_alter, if_pos rfl]
      simp

/-- The `SessionOpen`s of a publish. -/
theorem openEach_steps (c : ChannelId) (m : MessageId) (peers : List PeerId)
    (e : Engine RsStrategy N) (hto : ∀ p ∈ peers, p ∈ e.subscribersOf c) :
    DrainSteps c m e (openEach c m peers e).2 := by
  induction peers generalizing e with
  | nil => exact .refl
  | cons peer peers ih =>
    have hopen := ensureSessionOpen_steps e c m peer (.inl (hto peer List.mem_cons_self))
    have hsame := (ensureSessionOpen_same e c m peer).1
    unfold openEach
    rcases h : e.ensureSessionOpen c m peer with ⟨err | _, e1⟩ <;> rw [h] at hopen hsame
    · exact hopen
    · refine hopen.trans (ih e1 fun p hp => ?_)
      rw [subscribersOf_congr hsame]
      exact hto p (List.mem_cons_of_mem peer hp)

omit [Crates] in
/-- Routing updates, and the `SessionOpen`s before them, are control messages. -/
theorem routeEach_control (c : ChannelId) (m : MessageId) (payload : Bytes) (peers : List PeerId)
    (e : Engine RsStrategy N) (hlive : (e.session? c m).isSome)
    (hto : ∀ p ∈ peers, p ∈ e.subscribersOf c) :
    ControlSteps c m e (routeEach c m payload peers e).2 := by
  induction peers generalizing e with
  | nil => exact .refl
  | cons peer peers ih =>
    have hsame := (ensureSessionOpen_same e c m peer).1
    have hto1 : ∀ p ∈ peer :: peers, p ∈ (e.ensureSessionOpen c m peer).2.subscribersOf c := by
      rwa [subscribersOf_congr hsame]
    have hlive1 : ((e.ensureSessionOpen c m peer).2.session? c m).isSome := by
      rwa [session?_congr hsame]
    have hopen := ensureSessionOpen_control e c m peer (.inl (hto peer List.mem_cons_self))
    unfold routeEach
    rcases h : e.ensureSessionOpen c m peer with ⟨err | _, e1⟩ <;> rw [h] at hopen hto1 hlive1
    · exact hopen
    · simp only [send_eq]
      have hroute : ControlSteps c m e1
          { e1 with net := (Net.send e1.net (.routingUpdate peer c m payload)).2 } :=
        .single (.routed rfl hlive1 (hto1 peer List.mem_cons_self) (ensureSessionOpen_opened h))
      rcases hsend : Net.send e1.net (.routingUpdate peer c m payload) with ⟨err | _, net⟩ <;>
        rw [hsend] at hroute
      · exact hopen.trans hroute
      · exact (hopen.trans hroute).trans
          (ih _ hlive1 fun p hp => hto1 p (List.mem_cons_of_mem peer hp))

omit [Crates] in
/-- Routing changes no channel and no pending send. -/
theorem routeEach_same (c : ChannelId) (m : MessageId) (payload : Bytes) (peers : List PeerId)
    (e : Engine RsStrategy N) :
    (routeEach c m payload peers e).2.channels = e.channels
      ∧ (routeEach c m payload peers e).2.pendingSends = e.pendingSends := by
  induction peers generalizing e with
  | nil => exact ⟨rfl, rfl⟩
  | cons peer peers ih =>
    obtain ⟨hch, hpending⟩ := ensureSessionOpen_same e c m peer
    unfold routeEach
    rcases h : e.ensureSessionOpen c m peer with ⟨err | _, e1⟩ <;> rw [h] at hch hpending
    · exact ⟨hch, hpending⟩
    · simp only [send_eq]
      rcases Net.send e1.net (.routingUpdate peer c m payload) with ⟨err | _, net⟩
      · exact ⟨hch, hpending⟩
      · obtain ⟨hch', hpending'⟩ := ih { e1 with net }
        exact ⟨hch'.trans hch, hpending'.trans hpending⟩

omit [Crates] in
/-- Control messages touch neither a session nor a pending send. -/
theorem routeWork_same (c : ChannelId) (m : MessageId) (routing : Option BitMap)
    (e : Engine RsStrategy N) :
    (routeWork c m routing e).2.channels = e.channels
      ∧ (routeWork c m routing e).2.pendingSends = e.pendingSends := by
  cases routing with
  | none => exact ⟨rfl, rfl⟩
  | some routing => exact routeEach_same _ _ _ _ _

omit [Crates] in
theorem routeWork_control (c : ChannelId) (m : MessageId) (routing : Option BitMap)
    (e : Engine RsStrategy N) (hlive : (e.session? c m).isSome) :
    ControlSteps c m e (routeWork c m routing e).2 := by
  cases routing with
  | none => exact .refl
  | some routing => exact routeEach_control _ _ _ _ _ hlive fun _ hp => hp

/-- The batch is worked off from its front: a `SessionOpen` if the peer needs one, then the chunk, which is
pending or refunded. -/
theorem dispatchEach_batch (c : ChannelId) (m : MessageId) (ds : List (ChunkDispatch Nat))
    (stalled : Bool) (e : Engine RsStrategy N) (hnd : (ds.map (·.handle)).Nodup)
    (hds : ∀ d ∈ ds, Backed e c m d) :
    BatchSteps P c m (ds, e) ([], (dispatchEach c m ds stalled e).2) := by
  induction ds generalizing e stalled with
  | nil => exact .refl
  | cons d ds ih =>
    have hsame := session?_congr (ensureSessionOpen_same e c m d.peer).1 c m
    have hopen : BatchSteps P c m (d :: ds, e) (d :: ds, (e.ensureSessionOpen c m d.peer).2) :=
      (ensureSessionOpen_control e c m d.peer (hds d List.mem_cons_self).target).batch (d :: ds)
    simp only [List.map_cons, List.nodup_cons, List.mem_map, not_exists, not_and] at hnd
    unfold dispatchEach
    rcases h : e.ensureSessionOpen c m d.peer with ⟨err | _, e1⟩ <;> rw [h] at hopen hsame
    · exact hopen.tail .abandoned
    · simp only [send_eq]
      have hopened := ensureSessionOpen_opened h
      have hd1 : Backed e1 c m d := (hds d List.mem_cons_self).congr hsame
      have hds1 : ∀ d' ∈ ds, Backed e1 c m d' := fun d' hd' =>
        (hds d' (List.mem_cons_of_mem d hd')).congr hsame
      rcases hsend : Net.send e1.net (.chunk d.peer c m d.chunkId d.payload d.handle) with
        ⟨err | _, net⟩
      · refine (hopen.tail (.chunkRefused hd1 hsend hopened)).trans (ih _ _ hnd.2 fun d' hd' => ?_)
        have hd'' : Backed { e1 with net } c m d' := (hds1 d' hd').congr rfl
        exact hd''.refunded fun hh => hnd.1 d' hd' hh.symm
      · exact (hopen.tail (.chunkAccepted hd1 hsend hopened)).trans
          (ih _ _ hnd.2 fun d' hd' => (hds1 d' hd').congr rfl)

omit [Net N] in
/-- The dispatches of a poll are backed by the polled session. -/
theorem poll_backed {s : Session RsStrategy} (hs : e.session? c m = some s)
    {d : ChunkDispatch Nat} (hd : d ∈ s.poll.1.dispatches) :
    Backed (e.modifySession c m fun _ => s.poll.2) c m d := by
  have hspec := (s.strategy.pollRouting false).2.pollChunks_spec
  refine ⟨s.poll.2, by simp [session?_modifySession_self, hs], ?_, ?_, ?_⟩
  · exact (hspec.sameStore.chunkAt_eq _).trans (hspec.backed d hd)
  · rw [show s.poll.2.strategy.attachedPeers = (s.strategy.pollRouting false).2.attachedPeers from
      hspec.attachedPeers_eq]
    exact RsStrategy.pollChunks_peer_mem hd
  · refine (congrArg (·[d.handle]?) hspec.inFlight_eq).trans ?_
    exact RsStrategy.get_addFlights_self
      (s.strategy.pollRouting false).2.pollChunks_handles_nodup hd

/-- **One round of a drain**: a poll, the routing updates and the batch. -/
theorem drainRound_batch (e : Engine RsStrategy N) (c : ChannelId) (m : MessageId)
    (hP : ∀ s ∈ e.session? c m, P s) : BatchSteps P c m ([], e) ([], (e.drainRound c m).2) := by
  unfold drainRound
  cases hs : e.session? c m with
  | none => exact .refl
  | some s =>
    have hpoll : BatchSteps P c m ([], e) _ := .single (.polled hs (hP s hs))
    have hlive := isSome_modifySession hs fun _ => s.poll.2
    simp only
    split
    · exact hpoll.tail .abandoned
    · have hroute := (routeWork_control c m s.poll.1.routing
        (e.modifySession c m fun _ => s.poll.2) hlive).batch (P := P) s.poll.1.dispatches
      have hsame := (routeWork_same c m s.poll.1.routing (e.modifySession c m fun _ => s.poll.2)).1
      rcases hr : routeWork c m s.poll.1.routing (e.modifySession c m fun _ => s.poll.2) with
        ⟨err | _, e1⟩ <;> rw [hr] at hroute hsame
      · exact (hpoll.trans hroute).tail .abandoned
      · have hdispatch : BatchSteps P c m (s.poll.1.dispatches, e1) _ :=
          dispatchEach_batch c m s.poll.1.dispatches false e1
            (s.strategy.pollRouting false).2.pollChunks_handles_nodup fun d hd =>
              (poll_backed hs hd).congr (session?_congr hsame c m)
        have hall := (hpoll.trans hroute).trans hdispatch
        simp only
        rcases hd : dispatchEach c m s.poll.1.dispatches false e1 with ⟨err | stalled, e2⟩ <;>
          rw [hd] at hall
        · exact hall
        · cases stalled <;> exact hall

theorem drainRound_stepsIf (e : Engine RsStrategy N) (c : ChannelId) (m : MessageId)
    (hP : ∀ s ∈ e.session? c m, P s) : DrainStepsIf P c m e (e.drainRound c m).2 :=
  (e.drainRound_batch c m hP).stepsIf

theorem drainRound_steps (e : Engine RsStrategy N) (c : ChannelId) (m : MessageId) :
    DrainSteps c m e (e.drainRound c m).2 :=
  e.drainRound_stepsIf c m fun _ _ => trivial

/-- The rounds of a drain, each from a session of which `P` holds. -/
theorem drainLoop_batch (c : ChannelId) (m : MessageId) (fuel : Nat) (e : Engine RsStrategy N)
    (hP : ∀ e' ∈ drainRounds c m fuel e, ∀ s ∈ e'.session? c m, P s) :
    BatchSteps P c m ([], e) ([], (drainLoop c m fuel e).2) := by
  induction fuel generalizing e with
  | zero => exact .refl
  | succ fuel ih =>
    unfold drainRounds at hP
    have hround := e.drainRound_batch c m (hP e List.mem_cons_self)
    unfold drainLoop
    rcases h : e.drainRound c m with ⟨_ | r, e1⟩ <;> rw [h] at hround hP
    · exact hround.trans (ih e1 fun e' he' => hP e' (List.mem_cons_of_mem e he'))
    · exact hround

/-- **A drain is a sequence of atomic changes**, polls what its rounds poll, and submits each batch in
order. -/
theorem drainSession_batch (e : Engine RsStrategy N) (c : ChannelId) (m : MessageId)
    (hP : ∀ e' ∈ drainRounds c m (e.drainFuel c m) e, ∀ s ∈ e'.session? c m, P s) :
    BatchSteps P c m ([], e) ([], (e.drainSession c m).2) :=
  drainLoop_batch c m _ e hP

/-- **A drain** is made of drain steps, if `P` holds of the session before each round. -/
theorem drainSession_stepsIf (e : Engine RsStrategy N) (c : ChannelId) (m : MessageId)
    (hP : ∀ e' ∈ drainRounds c m (e.drainFuel c m) e, ∀ s ∈ e'.session? c m, P s) :
    DrainStepsIf P c m e (e.drainSession c m).2 :=
  (e.drainSession_batch c m hP).stepsIf

/-- A drain is made of drain steps. -/
theorem drainSession_steps (e : Engine RsStrategy N) (c : ChannelId) (m : MessageId) :
    DrainSteps c m e (e.drainSession c m).2 :=
  e.drainSession_stepsIf c m fun _ _ _ _ => trivial

/-- What every atomic change of every drain preserves, a drain preserves. -/
theorem DrainStepsIf.induct {Q : Engine RsStrategy N → Prop} (h : DrainStepsIf P c m e e')
    (hstep : ∀ {e e'}, DrainStepIf P c m e e' → Q e → Q e') (he : Q e) : Q e' := by
  induction h with
  | refl => exact he
  | tail _ hs ih => exact hstep hs ih

/-! ## Drains of one round -/

/-- A poll that finds no work ends the drain. -/
theorem drainRound_idle {s : Session RsStrategy} (hs : e.session? c m = some s)
    (hrouting : s.poll.1.routing = none) (hnone : s.poll.1.dispatches = []) :
    e.drainRound c m = (some (.ok ()), e.modifySession c m fun _ => s.poll.2) := by
  unfold drainRound
  simp only [hs]
  rw [hrouting, hnone]
  rfl

omit [Crates] in
/-- A session that is open at the peer is not opened again. -/
theorem ensureSessionOpen_of_opened {peer : PeerId} (h : e.openedTo[(c, m)]?.any (peer ∈ ·)) :
    e.ensureSessionOpen c m peer = (.ok (), e) := by
  unfold ensureSessionOpen
  rw [if_pos h]

omit [Crates] in
theorem send_ok {msg : NetSend} {net : N} (h : Net.send e.net msg = (.ok (), net)) :
    e.send msg = (.ok (), { e with net }) := by
  unfold send
  rw [h]

/-- The fields a drain never touches. -/
structure DrainFrame (c : ChannelId) (m : MessageId) (e e' : Engine RsStrategy N) : Prop where
  localPeer_eq : e'.localPeer = e.localPeer
  localPeerStr_eq : e'.localPeerStr = e.localPeerStr
  connected_eq : e'.connected = e.connected
  delivered_eq : e'.delivered = e.delivered
  sessionPreambles_eq : e'.sessionPreambles = e.sessionPreambles
  config_eq : e'.config = e.config
  clock_eq : e'.clock = e.clock
  sessionMeta_eq : e'.sessionMeta = e.sessionMeta
  tombstones_eq : e'.tombstones = e.tombstones
  parkedChunks_eq : e'.parkedChunks = e.parkedChunks
  nextCleanup_eq : e'.nextCleanup = e.nextCleanup
  subscribers_eq : ∀ c' : ChannelId,
    e'.channels[c']?.map Channel.subscribers = e.channels[c']?.map Channel.subscribers
  factory_eq : ∀ c' : ChannelId, e'.channels[c']?.map Channel.factory = e.channels[c']?.map Channel.factory
  session_ne : ∀ (c' : ChannelId) (m' : MessageId), ¬ (c = c' ∧ m = m') → e'.session? c' m' = e.session? c' m'
  pending_ne : ∀ (c' : ChannelId) (m' : MessageId) (h : DispatchHandle), ¬ (c = c' ∧ m = m') →
    e'.pendingSends[(c', m', h)]? = e.pendingSends[(c', m', h)]?
  opened_ne : ∀ (c' : ChannelId) (m' : MessageId), ¬ (c = c' ∧ m = m') →
    e'.openedTo[(c', m')]? = e.openedTo[(c', m')]?

namespace DrainFrame

omit [Crates] [Net N] in
theorem refl (e : Engine RsStrategy N) : DrainFrame c m e e :=
  ⟨rfl, rfl, rfl, rfl, rfl, rfl, rfl, rfl, rfl, rfl, rfl, fun _ => rfl, fun _ => rfl,
    fun _ _ _ => rfl, fun _ _ _ _ => rfl, fun _ _ _ => rfl⟩

omit [Crates] [Net N] in
theorem net (e : Engine RsStrategy N) (net : N) : DrainFrame c m e { e with net } :=
  ⟨rfl, rfl, rfl, rfl, rfl, rfl, rfl, rfl, rfl, rfl, rfl, fun _ => rfl, fun _ => rfl,
    fun _ _ _ => rfl, fun _ _ _ _ => rfl, fun _ _ _ => rfl⟩

omit [Crates] [Net N] in
theorem trans {e'' : Engine RsStrategy N} (h : DrainFrame c m e e') (h' : DrainFrame c m e' e'') :
    DrainFrame c m e e'' where
  localPeer_eq := h'.localPeer_eq.trans h.localPeer_eq
  localPeerStr_eq := h'.localPeerStr_eq.trans h.localPeerStr_eq
  connected_eq := h'.connected_eq.trans h.connected_eq
  delivered_eq := h'.delivered_eq.trans h.delivered_eq
  sessionPreambles_eq := h'.sessionPreambles_eq.trans h.sessionPreambles_eq
  config_eq := h'.config_eq.trans h.config_eq
  clock_eq := h'.clock_eq.trans h.clock_eq
  sessionMeta_eq := h'.sessionMeta_eq.trans h.sessionMeta_eq
  tombstones_eq := h'.tombstones_eq.trans h.tombstones_eq
  parkedChunks_eq := h'.parkedChunks_eq.trans h.parkedChunks_eq
  nextCleanup_eq := h'.nextCleanup_eq.trans h.nextCleanup_eq
  subscribers_eq c' := (h'.subscribers_eq c').trans (h.subscribers_eq c')
  factory_eq c' := (h'.factory_eq c').trans (h.factory_eq c')
  session_ne c' m' hne := (h'.session_ne c' m' hne).trans (h.session_ne c' m' hne)
  pending_ne c' m' k hne := (h'.pending_ne c' m' k hne).trans (h.pending_ne c' m' k hne)
  opened_ne c' m' hne := (h'.opened_ne c' m' hne).trans (h.opened_ne c' m' hne)

omit [Crates] [Net N] in
/-- Updating the drained session changes nothing outside it. -/
theorem modifySession (e : Engine RsStrategy N) (f : Session RsStrategy → Session RsStrategy) :
    DrainFrame c m e (e.modifySession c m f) where
  localPeer_eq := rfl
  localPeerStr_eq := rfl
  connected_eq := rfl
  delivered_eq := rfl
  sessionPreambles_eq := rfl
  config_eq := rfl
  clock_eq := rfl
  sessionMeta_eq := rfl
  tombstones_eq := rfl
  parkedChunks_eq := rfl
  nextCleanup_eq := rfl
  subscribers_eq c' := by
    rw [channels_modifySession]
    by_cases hc : c = c'
    · subst hc
      cases e.channels[c]? <;> simp
    · simp [hc]
  factory_eq c' := by
    rw [channels_modifySession]
    by_cases hc : c = c'
    · subst hc
      cases e.channels[c]? <;> simp
    · simp [hc]
  session_ne c' m' hne := by rw [session?_modifySession, if_neg hne]
  pending_ne _ _ _ _ := rfl
  opened_ne _ _ _ := rfl

end DrainFrame

/-- A step of a drain changes what its frame allows. -/
theorem DrainStepIf.frame (h : DrainStepIf P c m e e') : DrainFrame c m e e' := by
  cases h with
  | openRefused | routed => exact .net e _
  | polled => exact .modifySession e _
  | chunkRefused => exact (DrainFrame.net e _).trans (.modifySession _ _)
  | opened =>
    refine { DrainFrame.refl e with opened_ne := fun c' m' hne => ?_ }
    rw [BTreeMap.get_alter, if_neg (by simpa using hne)]
  | chunkAccepted =>
    refine { DrainFrame.refl e with pending_ne := fun c' m' k hne => ?_ }
    rw [BTreeMap.get_insert, if_neg]
    simp only [Prod.mk.injEq, not_and]
    intro hc hm
    exact absurd ⟨hc, hm⟩ hne

theorem DrainStepsIf.frame (h : DrainStepsIf P c m e e') : DrainFrame c m e e' := by
  induction h with
  | refl => exact .refl e
  | tail _ hs ih => exact ih.trans hs.frame

/-- What every submission keeps of the transport, a drain keeps. -/
theorem DrainStepsIf.net {Q : N → Prop} (hsend : ∀ net msg, Q net → Q (Net.send net msg).2)
    (h : DrainStepsIf P c m e e') (he : Q e.net) : Q e'.net := by
  refine h.induct (Q := fun e => Q e.net) (fun {e e'} hstep he => ?_) he
  have hkeep : ∀ {msg answer net}, Net.send e.net msg = (answer, net) → Q net := by
    intro msg answer net hs
    have hnet := hsend e.net msg he
    rwa [hs] at hnet
  cases hstep with
  | polled => exact he
  | openRefused _ _ hs | opened _ _ hs | routed hs | chunkAccepted _ hs | chunkRefused _ hs =>
    exact hkeep hs

end Drain

/-! ## What a drain submits -/

section Log

variable [Crates] {P : Session RsStrategy → Prop} {c : ChannelId} {m : MessageId}
  {e e' : Engine RsStrategy Wire}

omit [Crates] in
/-- A submission is logged with its answer. -/
theorem log_send {net : Wire} {msg : NetSend} {r : Except NetError Unit}
    (h : Net.send e.net msg = (r, net)) : net.log = e.net.log ++ [⟨msg, r⟩] := by
  cases h
  rfl

/-- A drain only adds to the log. -/
theorem DrainStepIf.log (h : DrainStepIf P c m e e') : e.net.log <+: e'.net.log := by
  cases h with
  | polled => exact List.prefix_rfl
  | openRefused _ _ hsend | opened _ _ hsend | routed hsend | chunkAccepted _ hsend
  | chunkRefused _ hsend =>
    exact ⟨_, (log_send hsend).symm⟩

/-- A drain only adds to the log. -/
theorem DrainStepsIf.log (h : DrainStepsIf P c m e e') : e.net.log <+: e'.net.log := by
  induction h with
  | refl => exact List.prefix_rfl
  | tail _ hs ih => exact ih.trans hs.log

/-- The last thing submitted since `e` is a refused message that carries no chunk. -/
def ControlRefused (e e' : Engine RsStrategy Wire) : Prop :=
  ∃ before sent, e'.net.log = before ++ [sent] ∧ e.net.log <+: before
    ∧ sent.accepted = false ∧ sent.msg.isChunk = false

omit [Crates] in
/-- What was refused after a later state was refused after an earlier one. -/
theorem ControlRefused.of_earlier {e₀ : Engine RsStrategy Wire} (h : ControlRefused e e')
    (hlog : e₀.net.log <+: e.net.log) : ControlRefused e₀ e' := by
  obtain ⟨before, sent, hsent, hpre, hrest⟩ := h
  exact ⟨before, sent, hsent, hlog.trans hpre, hrest⟩

omit [Crates] in
theorem ensureSessionOpen_log (e : Engine RsStrategy Wire) (c : ChannelId) (m : MessageId)
    (peer : PeerId) : e.net.log <+: (e.ensureSessionOpen c m peer).2.net.log := by
  unfold ensureSessionOpen
  split
  · exact List.prefix_rfl
  · cases e.sessionPreambles[(c, m)]? with
    | none => exact List.prefix_rfl
    | some preamble =>
      simp only [send_eq]
      rcases hsend : Net.send e.net (.sessionOpen peer c m preamble []) with ⟨err | _, net⟩ <;>
        exact ⟨_, (log_send hsend).symm⟩

omit [Crates] in
/-- Opening a session fails only if the `SessionOpen` was refused. -/
theorem ensureSessionOpen_error {peer : PeerId} {err : EngineError}
    (h : e.ensureSessionOpen c m peer = (.error err, e')) : ControlRefused e e' := by
  unfold ensureSessionOpen at h
  split at h
  · cases h
  split at h
  · cases h
  case h_2 preamble hpre =>
    simp only [send_eq] at h
    rcases hsend : Net.send e.net (.sessionOpen peer c m preamble []) with ⟨err' | _, net⟩ <;>
      rw [hsend] at h
    · cases h
      exact ⟨_, _, log_send hsend, List.prefix_rfl, rfl, rfl⟩
    · cases h

omit [Crates] in
/-- Routing stops at a control message that was refused. -/
theorem routeEach_error {payload : Bytes} {peers : List PeerId} {err : EngineError}
    (h : routeEach c m payload peers e = (.error err, e')) : ControlRefused e e' := by
  induction peers generalizing e with
  | nil => cases h
  | cons peer peers ih =>
    have hopen := ensureSessionOpen_log e c m peer
    unfold routeEach at h
    rcases he1 : e.ensureSessionOpen c m peer with ⟨err' | _, e1⟩ <;> rw [he1] at h hopen
    · cases h
      exact ensureSessionOpen_error he1
    · simp only [send_eq] at h
      rcases hsend : Net.send e1.net (.routingUpdate peer c m payload) with ⟨err' | _, net⟩ <;>
        rw [hsend] at h
      · cases h
        exact ⟨_, _, log_send hsend, hopen, rfl, rfl⟩
      · refine (ih h).of_earlier (hopen.trans ?_)
        exact ⟨_, (log_send hsend).symm⟩

/-- A batch is cut short by a refused `SessionOpen` only; a refused chunk does not end it. -/
theorem dispatchEach_error {ds : List (ChunkDispatch Nat)} {stalled : Bool} {err : EngineError}
    (h : dispatchEach c m ds stalled e = (.error err, e')) : ControlRefused e e' := by
  induction ds generalizing e stalled with
  | nil => cases h
  | cons d ds ih =>
    have hopen := ensureSessionOpen_log e c m d.peer
    unfold dispatchEach at h
    rcases he1 : e.ensureSessionOpen c m d.peer with ⟨err' | _, e1⟩ <;> rw [he1] at h hopen
    · cases h
      exact ensureSessionOpen_error he1
    · simp only [send_eq] at h
      rcases hsend : Net.send e1.net (.chunk d.peer c m d.chunkId d.payload d.handle) with
        ⟨err' | _, net⟩ <;> rw [hsend] at h <;>
      · refine (ih h).of_earlier (hopen.trans ?_)
        exact ⟨_, (log_send hsend).symm⟩

/-- A round that ends in an error ends with a refused message that carries no chunk. -/
theorem drainRound_error {err : EngineError} (h : (e.drainRound c m).1 = some (.error err)) :
    ControlRefused e (e.drainRound c m).2 := by
  unfold drainRound at h ⊢
  cases hs : e.session? c m with
  | none => simp [hs] at h
  | some s =>
    simp only [hs] at h ⊢
    split at h
    · cases h
    case isFalse hwork =>
      rw [if_neg hwork]
      have hroute : DrainSteps c m _ _ :=
        (routeWork_control c m s.poll.1.routing (e.modifySession c m fun _ => s.poll.2)
          (isSome_modifySession hs fun _ => s.poll.2)).stepsIf
      rcases hr : routeWork c m s.poll.1.routing (e.modifySession c m fun _ => s.poll.2) with
        ⟨err' | _, e1⟩ <;> rw [hr] at h hroute
      · cases hrouting : s.poll.1.routing with
        | none => simp [routeWork, hrouting] at hr
        | some routing =>
          rw [hrouting] at hr
          have hrefused : ControlRefused (e.modifySession c m fun _ => s.poll.2) e1 :=
            routeEach_error hr
          exact hrefused.of_earlier List.prefix_rfl
      · simp only at h ⊢
        rcases hd : dispatchEach c m s.poll.1.dispatches false e1 with ⟨err' | stalled, e2⟩ <;>
          rw [hd] at h
        · exact (dispatchEach_error hd).of_earlier hroute.log
        · cases stalled <;> cases h

end Log

end Engine

end Ethp2p
