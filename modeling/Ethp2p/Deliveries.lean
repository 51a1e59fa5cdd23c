/-
# Ethp2p.Deliveries — from a reconstructed session to the delivery sink.

A step decodes at most one session.  `emission` is what comes of it: the message the session was
reconstructed to, and the state in which the engine then tells the upstream senders.  A session
enters `Reconstructed` exactly in the steps that have an emission (`emission_iff_reconstructs`).

The message is offered to the sink ONCE, with `try_send`, and a full sink drops it.  `placed` is
everything the application has received or still can; `run_noLostDelivery_iff` says that nothing
reconstructed is missing from it exactly when the sink had room at every emission.
-/
import Ethp2p.Engine.Sessions
import Ethp2p.Strategy.Rs.OneShard

namespace Ethp2p

open Std

/-! ## The session's lifecycle -/

section Lifecycle

variable [Crates] {F : Prop} {s s' : Session RsStrategy}

/-- A chunk moves a session from `Consuming` to `Decoding` at most. -/
theorem Session.takeChunk_state (s : Session RsStrategy) (idx : Nat) (data : Bytes) :
    (s.takeChunk idx data).2.state = s.state
      ∨ (s.state = .consuming ∧ (s.takeChunk idx data).2.state = .decoding) := by
  unfold takeChunk
  cases hstate : s.state with
  | consuming =>
    dsimp only
    rcases Strategy.takeChunk s.strategy idx data with ⟨err | outcome, strategy⟩
    · exact .inl rfl
    · dsimp only
      split
      · exact .inr ⟨rfl, rfl⟩
      · exact .inl rfl
  | decoding | reconstructed | origin | failed => exact .inl hstate

/-- A decode settles a `Decoding` session. -/
theorem Session.decodeAndFinish_settles (h : s.state = .decoding) :
    s.decodeAndFinish.2.state = .reconstructed ∨ s.decodeAndFinish.2.state = .failed := by
  unfold decodeAndFinish
  rw [if_neg (not_not.mpr h)]
  split
  · exact .inl rfl
  · exact .inr rfl

/-- A decode moves a session from `Decoding` to `Reconstructed` or `Failed`. -/
theorem Session.decodeAndFinish_state (s : Session RsStrategy) :
    s.decodeAndFinish.2.state = s.state ∨ (s.state = .decoding
      ∧ (s.decodeAndFinish.2.state = .reconstructed ∨ s.decodeAndFinish.2.state = .failed)) := by
  by_cases h : s.state = .decoding
  · exact .inr ⟨h, decodeAndFinish_settles h⟩
  · unfold decodeAndFinish
    rw [if_pos h]
    exact .inl rfl

/-- **One operation on the lifecycle.** -/
theorem SessionOp.state (h : SessionOp F s s') :
    s'.state = s.state ∨ (s.state = .consuming ∧ s'.state = .decoding)
      ∨ (F ∧ s.state = .decoding ∧ (s'.state = .reconstructed ∨ s'.state = .failed)) := by
  cases h with
  | attach | detach | poll | sent => exact .inl rfl
  | take idx data => exact (s.takeChunk_state idx data).imp_right .inl
  | finish hF => exact s.decodeAndFinish_state.imp_right fun h => .inr ⟨hF, h⟩

/-- A session that neither consumes nor decodes stays in its state. -/
theorem SessionOps.state_eq (h : SessionOps F s s') (hconsuming : s.state ≠ .consuming)
    (hdecoding : s.state ≠ .decoding) : s'.state = s.state := by
  refine h.induct (P := fun s' => s'.state = s.state) (fun hop hs => ?_) rfl
  rcases hop.state with hsame | ⟨hstate, -⟩ | ⟨-, hstate, -⟩
  · exact hsame.trans hs
  · exact absurd (hs.symm.trans hstate) hconsuming
  · exact absurd (hs.symm.trans hstate) hdecoding

/-- Without a decode no session is reconstructed. -/
theorem SessionOps.not_reconstructed (h : SessionOps F s s') (hF : ¬ F)
    (hs : s.state ≠ .reconstructed) : s'.state ≠ .reconstructed := by
  refine h.induct (P := fun s' => s'.state ≠ .reconstructed) (fun hop hs => ?_) hs
  rcases hop.state with hsame | ⟨-, hdecoding⟩ | ⟨hyes, -⟩
  · rwa [hsame]
  · simp [hdecoding]
  · exact absurd hyes hF

end Lifecycle

namespace Engine

section Emission

variable [Crates] {N : Type} {i : Input RsStrategy} {D : Terms N} {e e' e₁ : Engine RsStrategy N}
  {c : ChannelId} {m : MessageId} {d : DeliveredMessage}

/-- The session of `(c, m)` is live and `Reconstructed`. -/
def Reconstructed (e : Engine RsStrategy N) (c : ChannelId) (m : MessageId) : Prop :=
  ∃ s, e.session? c m = some s ∧ s.state = .reconstructed

omit [Crates] in
/-- Whether a session is reconstructed is read off the session. -/
theorem reconstructed_of_session? (h : e'.session? c m = e.session? c m) :
    e'.Reconstructed c m ↔ e.Reconstructed c m := by
  unfold Reconstructed
  rw [h]

variable [Net N]

/-- Outside decodes and sweeps a session is `Reconstructed` exactly if it was. -/
theorem Act.reconstructed_iff (h : Act i D e e') (hdecodes : ¬ D.decodes) (hsweeps : ¬ D.sweeps)
    (c : ChannelId) (m : MessageId) : e'.Reconstructed c m ↔ e.Reconstructed c m := by
  have htrans := h.session c m
  unfold Reconstructed
  generalize e.session? c m = o at htrans ⊢
  generalize e'.session? c m = o' at htrans ⊢
  cases htrans with
  | kept => rfl
  | @ops s s' hops =>
    simp only [Option.some.injEq, exists_eq_left']
    constructor
    · exact fun hs' => by_contra fun hs => hops.not_reconstructed hdecodes hs hs'
    · intro hs
      rw [hops.state_eq (by simp [hs]) (by simp [hs]), hs]
  | @relay peer preamble update ch strategy factory =>
    have hstate := (ch.attachAll_ops (F := False) (Session.newRelay strategy)).not_reconstructed id
      (by simp [Session.newRelay])
    simp [hstate]
  | @origin strategy preamble ch =>
    have hstate := (ch.attachAll_ops (F := False) (Session.newOrigin strategy)).not_reconstructed id
      (by simp [Session.newOrigin])
    simp [hstate]
  | removed hyes => exact absurd hyes hsweeps

/-- Outside decodes the engine offers nothing to the sink. -/
theorem Act.delivered_eq (h : Act i D e e') (hdecodes : ¬ D.decodes) (hi : i ≠ .recv) :
    e'.delivered = e.delivered := by
  cases h with
  | hosted | announced | registered | greeted | rejected | enrolled | unsubscribed | disconnected
  | refusedOpen | parked | unparked | resolved | detached | disposed | swept | ticked | scheduled =>
    rfl
  | openedRelay | startedOrigin =>
    obtain ⟨clock, sessionMeta, hrelay⟩ := withRelay_eq e _ _ _ _
    rw [hrelay]
  | ensured hto => exact (ensureSessionOpen_steps e _ _ _ (.inl hto)).frame.delivered_eq
  | drained => exact (drainSession_steps e _ _).frame.delivered_eq
  | took => rw [takeChunk_eq]; rfl
  | decoded hyes => exact absurd hyes hdecodes
  | received hrecv => exact absurd hrecv hi

/-- The terms of a step up to its decode. -/
abbrev Terms.handling : Terms N := ⟨fun _ _ => True, False, False⟩

theorem beforeDecode_handling (e : Engine RsStrategy N) (i : Input RsStrategy) :
    Acts i Terms.handling e (e.beforeDecode i).2 :=
  beforeDecode_acts i e fun _ _ => trivial

/-- Nothing is reconstructed before the decoding. -/
theorem beforeDecode_reconstructed (e : Engine RsStrategy N) (i : Input RsStrategy)
    (c : ChannelId) (m : MessageId) :
    (e.beforeDecode i).2.Reconstructed c m ↔ e.Reconstructed c m :=
  (beforeDecode_handling e i).induct (P := fun e' => e'.Reconstructed c m ↔ e.Reconstructed c m)
    (fun hact he => (hact.reconstructed_iff id id c m).trans he) .rfl

/-- Nothing is delivered before the decoding. -/
theorem beforeDecode_delivered (e : Engine RsStrategy N) (hi : i ≠ .recv) :
    (e.beforeDecode i).2.delivered = e.delivered :=
  (beforeDecode_handling e i).induct (P := fun e' => e'.delivered = e.delivered)
    (fun hact he => (hact.delivered_eq id hi).trans he) rfl

/-! ## Emissions -/

/-- What a step reconstructs: the message, and the state in which the upstream senders are told. -/
def emission (e : Engine RsStrategy N) (i : Input RsStrategy) :
    Option (DeliveredMessage × Engine RsStrategy N) :=
  match e.beforeDecode i with
  | (none, _) => none
  | (some k, e) =>
    match e.session? k.1 k.2 with
    | none => none
    | some s =>
      match s.decodeAndFinish.1 with
      | .ok payload => some (⟨k.1, k.2, payload⟩, e.afterDecode k.1 k.2 s)
      | .error _ => none

/-- Where an emission comes from. -/
theorem emission_eq_some (h : e.emission i = some (d, e₁)) :
    ∃ e₀ s, e.beforeDecode i = (some (d.channelId, d.messageId), e₀)
      ∧ e₀.session? d.channelId d.messageId = some s ∧ s.state = .decoding
      ∧ s.decodeAndFinish.1 = .ok d.payload
      ∧ e₁ = e₀.afterDecode d.channelId d.messageId s := by
  unfold emission at h
  split at h
  · cases h
  case h_2 k e₀ hbefore =>
    split at h
    · cases h
    case h_2 s hs =>
      split at h
      case h_1 payload hdecode =>
        obtain ⟨rfl, rfl⟩ := Prod.mk.inj (Option.some.inj h)
        exact ⟨e₀, s, hbefore, hs, (Session.decodeAndFinish_ok hdecode).1, hdecode, rfl⟩
      · cases h

omit [Net N] in
/-- A message that was decoded is put into the sink, if there is room. -/
theorem afterDecode_ok (e : Engine RsStrategy N) {s : Session RsStrategy} {payload : Bytes}
    (h : s.decodeAndFinish.1 = .ok payload) :
    (e.afterDecode c m s).delivered = (e.delivered.trySend ⟨c, m, payload⟩).2 := by
  unfold afterDecode
  obtain ⟨clock, sessionMeta, hmark⟩ := markSessionTerminal_frame
    (e.modifySession c m fun _ => s.decodeAndFinish.2) c m
  simp only [h, hmark]
  rfl

omit [Net N] in
/-- A decoding that failed delivers nothing. -/
theorem afterDecode_error (e : Engine RsStrategy N) {s : Session RsStrategy}
    {err : SessionError} (h : s.decodeAndFinish.1 = .error err) :
    (e.afterDecode c m s).delivered = e.delivered := by
  unfold afterDecode
  obtain ⟨clock, sessionMeta, hmark⟩ := markSessionTerminal_frame
    (e.modifySession c m fun _ => s.decodeAndFinish.2) c m
  simp only [h, hmark]
  rfl

omit [Net N] in
/-- A decoding changes the session it decodes. -/
theorem session?_afterDecode (e : Engine RsStrategy N) (c c' : ChannelId) (m m' : MessageId)
    (s : Session RsStrategy) :
    (e.afterDecode c' m' s).session? c m = if c' = c ∧ m' = m
      then (e.session? c m).map fun _ => s.decodeAndFinish.2 else e.session? c m := by
  have hget := session?_of_channels m (congrArg (·[c]?) (afterDecode_channels e c' m' s))
  rw [session?_modifySession] at hget
  rw [hget]
  split
  case isTrue hk => rw [hk.1, hk.2]
  case isFalse => rfl

/-- A decode, told in terms of `afterDecode`. -/
theorem maybeDecodeAndDeliver_eq (e : Engine RsStrategy N) (c : ChannelId) (m : MessageId) :
    e.maybeDecodeAndDeliver c m = match e.session? c m with
      | none => e
      | some s => match s.decodeAndFinish.1 with
        | .ok _ => { e.afterDecode c m s with
            net := (Net.send (e.afterDecode c m s).net (.sessionReconstructed c m)).2 }
        | .error _ => e.afterDecode c m s := by
  unfold maybeDecodeAndDeliver
  cases hs : e.session? c m with
  | none => rfl
  | some s =>
    unfold afterDecode
    dsimp only
    cases s.decodeAndFinish.1 with
    | error err => rfl
    | ok payload => simp only [send_eq]

/-- After an emission the engine tells the upstream senders, and that is the last thing it does
before the cleanup check. -/
theorem beforeSweep_of_emission (h : e.emission i = some (d, e₁)) :
    e.beforeSweep i = { e₁ with
      net := (Net.send e₁.net (.sessionReconstructed d.channelId d.messageId)).2 } := by
  obtain ⟨e₀, s, hbefore, hs, -, hdecode, rfl⟩ := emission_eq_some h
  simp only [beforeSweep, hbefore, maybeDecodeAndDeliver_eq, hs, hdecode]

theorem emission_recv (e : Engine RsStrategy N) : e.emission .recv = none := rfl

theorem ne_recv_of_emission (h : e.emission i = some (d, e₁)) : i ≠ .recv := by
  rintro rfl
  cases h

/-- At an emission the message has been offered to the sink. -/
theorem emission_delivered (h : e.emission i = some (d, e₁)) :
    e₁.delivered = (e.delivered.trySend d).2 := by
  have hsame := beforeDecode_delivered e (ne_recv_of_emission h)
  obtain ⟨e₀, s, hbefore, hs, -, hdecode, rfl⟩ := emission_eq_some h
  rw [hbefore] at hsame
  rw [afterDecode_ok e₀ hdecode, hsame]

/-- **Emissions are reconstructions**: a step has an emission for `(c, m)` exactly when it brings
that session to `Reconstructed`. -/
theorem emission_iff_reconstructs (e : Engine RsStrategy N) (i : Input RsStrategy) (c : ChannelId)
    (m : MessageId) :
    (∃ payload e₁, e.emission i = some (⟨c, m, payload⟩, e₁))
      ↔ ¬ e.Reconstructed c m ∧ (e.beforeSweep i).Reconstructed c m := by
  rw [← beforeDecode_reconstructed e i]
  constructor
  · rintro ⟨payload, e₁, h⟩
    obtain ⟨e₀, s, hbefore, hs, hstate, hdecode, rfl⟩ := emission_eq_some h
    rw [beforeSweep_of_emission h, hbefore]
    refine ⟨?_, s.decodeAndFinish.2, ?_, (Session.decodeAndFinish_ok hdecode).2.2⟩
    · rintro ⟨s', hs', hrec⟩
      obtain rfl := Option.some.inj (hs.symm.trans hs')
      simp [hstate] at hrec
    · refine (session?_afterDecode e₀ c c m m s).trans ?_
      rw [if_pos ⟨rfl, rfl⟩]
      exact congrArg (Option.map _) hs
  · rintro ⟨hnot, hrec⟩
    unfold beforeSweep at hrec
    rcases hbefore : e.beforeDecode i with ⟨_ | k, e₀⟩ <;> rw [hbefore] at hrec hnot
    · exact absurd hrec hnot
    · simp only [maybeDecodeAndDeliver_eq] at hrec
      cases hs : e₀.session? k.1 k.2 with
      | none =>
        rw [hs] at hrec
        exact absurd hrec hnot
      | some s =>
        -- the decoded session must be the one that became `Reconstructed`
        have hafter : (e₀.afterDecode k.1 k.2 s).Reconstructed c m := by
          simp only [hs] at hrec
          cases hdecode : s.decodeAndFinish.1 <;> rw [hdecode] at hrec <;> exact hrec
        obtain ⟨s', hs', hstate⟩ := hafter
        rw [session?_afterDecode] at hs'
        split at hs'
        case isFalse => exact absurd ⟨s', hs', hstate⟩ hnot
        case isTrue hk =>
          obtain ⟨rfl, rfl⟩ := hk
          rw [hs] at hs'
          obtain rfl := Option.some.inj hs'
          cases hdecode : s.decodeAndFinish.1 with
          | ok payload =>
            refine ⟨payload, e₀.afterDecode k.1 k.2 s, ?_⟩
            simp only [emission, hbefore, hs, hdecode]
          | error err =>
            refine absurd ⟨s, hs, ?_⟩ hnot
            unfold Session.decodeAndFinish at hdecode hstate
            split at hstate
            · exact hstate
            case isFalse hdecoding =>
              rw [if_neg hdecoding] at hdecode
              split at hstate
              case h_1 heq => simp [heq] at hdecode
              case h_2 => cases hstate

/-! ## The sink of a step -/

/-- The cleanup check leaves the sink alone. -/
theorem step_delivered (e : Engine RsStrategy N) (i : Input RsStrategy) :
    (e.step i).2.delivered = (e.beforeSweep i).delivered := by
  rw [step_eq]
  cases i with
  | event ev => exact (maybeRunCleanup_frame _).2
  | subscribe | connect | publish | recv => rfl

/-- What a step emits is what it puts into the sink. -/
theorem step_delivered_of_emission (h : e.emission i = some (d, e₁)) :
    (e.step i).2.delivered = (e.delivered.trySend d).2 := by
  rw [step_delivered, beforeSweep_of_emission h, ← emission_delivered h]

/-- A step without emission offers nothing. -/
theorem step_delivered_of_none (h : e.emission i = none) (hi : i ≠ .recv) :
    (e.step i).2.delivered = e.delivered := by
  have hsame := beforeDecode_delivered e hi
  rw [step_delivered]
  unfold beforeSweep
  rcases hbefore : e.beforeDecode i with ⟨_ | k, e₀⟩ <;> rw [hbefore] at hsame
  · exact hsame
  · simp only [emission, hbefore] at h
    simp only [maybeDecodeAndDeliver_eq]
    cases hs : e₀.session? k.1 k.2 with
    | none => exact hsame
    | some s =>
      simp only [hs] at h
      cases hdecode : s.decodeAndFinish.1 with
      | ok payload => simp [hdecode] at h
      | error err =>
        simp only [hdecode]
        exact (afterDecode_error e₀ hdecode).trans hsame

/-! ## Runs -/

/-- The messages sessions are reconstructed to in a run. -/
def reconstructed : Engine RsStrategy N → List (Input RsStrategy) → List DeliveredMessage
  | _, [] => []
  | e, i :: inputs =>
    ((e.emission i).map Prod.fst).toList ++ reconstructed (e.step i).2 inputs

/-- The messages the application takes out of the sink in a run. -/
def received : Engine RsStrategy N → List (Input RsStrategy) → List DeliveredMessage
  | _, [] => []
  | e, .recv :: inputs => e.delivered.recv.1.toList ++ received (e.step .recv).2 inputs
  | e, i :: inputs => received (e.step i).2 inputs

/-- The messages placed in the sink in a run: those the application took and those it still can. -/
def placed (e : Engine RsStrategy N) (inputs : List (Input RsStrategy)) : List DeliveredMessage :=
  received e inputs ++ (e.run inputs).delivered.queue

/-- Every reconstructed payload is placed in the sink, once and in order, and is there when the
upstream senders are told. -/
structure NoLostDelivery (e : Engine RsStrategy N) (inputs : List (Input RsStrategy)) : Prop where
  placed_eq : placed e inputs = reconstructed e inputs
  before_told : EachStep (fun e i => ∀ d e₁, e.emission i = some (d, e₁) →
    e₁.delivered.queue = e.delivered.queue ++ [d]) e inputs

/-- The sink has room when the step has something to offer. -/
def RoomFor (e : Engine RsStrategy N) (i : Input RsStrategy) : Prop :=
  (e.emission i).isSome → e.delivered.hasRoom

instance (e : Engine RsStrategy N) (i : Input RsStrategy) : Decidable (e.RoomFor i) :=
  inferInstanceAs (Decidable ((e.emission i).isSome → e.delivered.hasRoom))

/-- The offers of a run that found room. -/
def roomed : Engine RsStrategy N → List (Input RsStrategy) → List DeliveredMessage
  | _, [] => []
  | e, i :: inputs =>
    (if e.delivered.hasRoom then ((e.emission i).map Prod.fst).toList else [])
      ++ roomed (e.step i).2 inputs

omit [Crates] in
/-- The sink takes a message if it has room, and drops it otherwise. -/
theorem queue_trySend (s : Sink) (d : DeliveredMessage) :
    (s.trySend d).2.queue = s.queue ++ if s.hasRoom then [d] else [] := by
  unfold Sink.trySend Sink.hasRoom
  cases s.closed with
  | true => simp
  | false => by_cases hroom : s.queue.length < s.capacity <;> simp [hroom]

/-- What a step adds to the queue. -/
theorem queue_step (e : Engine RsStrategy N) (hi : i ≠ .recv) :
    (e.step i).2.delivered.queue = e.delivered.queue
      ++ if e.delivered.hasRoom then ((e.emission i).map Prod.fst).toList else [] := by
  cases h : e.emission i with
  | none => simp [step_delivered_of_none h hi]
  | some out =>
    rw [step_delivered_of_emission (show e.emission i = some (out.1, out.2) from h), queue_trySend]
    rfl

/-- What is placed in a run is what was there and the offers that found room. -/
theorem placed_eq_roomed (e : Engine RsStrategy N) (inputs : List (Input RsStrategy)) :
    placed e inputs = e.delivered.queue ++ roomed e inputs := by
  induction inputs generalizing e with
  | nil => simp [placed, received, roomed, run]
  | cons i inputs ih =>
    have hrest := ih (e.step i).2
    by_cases hi : i = .recv
    · subst hi
      -- the queue before is its head, taken now, and the queue after
      have hqueue : e.delivered.queue
          = e.delivered.recv.1.toList ++ (e.step .recv).2.delivered.queue := by
        show _ = e.delivered.queue.head?.toList ++ e.delivered.queue.tail
        cases e.delivered.queue <;> rfl
      have hplaced : placed e (.recv :: inputs)
          = e.delivered.recv.1.toList ++ placed (e.step .recv).2 inputs := by
        simp [placed, received, run]
      rw [hplaced, hrest, ← List.append_assoc, ← hqueue]
      simp [roomed, emission_recv]
    · have hplaced : placed e (i :: inputs) = placed (e.step i).2 inputs := by
        cases i with
        | recv => exact absurd rfl hi
        | subscribe | connect | publish | event => simp [placed, received, run]
      rw [hplaced, hrest, queue_step e hi, List.append_assoc]
      rfl

/-- The messages for which there was room are some of those that were reconstructed. -/
theorem roomed_sublist (e : Engine RsStrategy N) (inputs : List (Input RsStrategy)) :
    (roomed e inputs).Sublist (reconstructed e inputs) := by
  induction inputs generalizing e with
  | nil => exact .refl _
  | cons i inputs ih =>
    refine .append ?_ (ih _)
    split
    · exact .refl _
    · exact List.nil_sublist _

/-- Nothing is missing exactly when every offer found room. -/
theorem roomed_eq_iff (e : Engine RsStrategy N) (inputs : List (Input RsStrategy)) :
    roomed e inputs = reconstructed e inputs ↔ EachStep RoomFor e inputs := by
  induction inputs generalizing e with
  | nil => simp [roomed, reconstructed, EachStep]
  | cons i inputs ih =>
    simp only [roomed, reconstructed, EachStep, ← ih, RoomFor]
    cases h : e.emission i with
    | none => simp
    | some out =>
      by_cases hroom : e.delivered.hasRoom
      · simp [hroom]
      · have hlength := (roomed_sublist (e.step i).2 inputs).length_le
        have hne : roomed (e.step i).2 inputs
            ≠ out.1 :: reconstructed (e.step i).2 inputs := by
          intro heq
          rw [heq, List.length_cons] at hlength
          omega
        simp [hroom, hne]

/-- With room, the message is in the sink when the upstream senders are told. -/
theorem before_told_of_roomFor {inputs : List (Input RsStrategy)}
    (h : EachStep RoomFor e inputs) : EachStep (fun e i => ∀ d e₁, e.emission i = some (d, e₁) →
      e₁.delivered.queue = e.delivered.queue ++ [d]) e inputs := by
  induction inputs generalizing e with
  | nil => trivial
  | cons i inputs ih =>
    refine ⟨fun d e₁ hemit => ?_, ih h.2⟩
    have hroom : e.delivered.hasRoom := h.1 (by simp [hemit])
    rw [emission_delivered hemit, queue_trySend, if_pos hroom]

/-- **No delivery is lost** in a run of an engine with an empty sink of any capacity, exactly when
the sink had room at every step that reconstructed a session. -/
theorem run_noLostDelivery_iff (localPeer : PeerId) (net : N) (capacity : Nat)
    (config : EngineConfig) (clock : Clock) (inputs : List (Input RsStrategy)) :
    NoLostDelivery (withConfig localPeer net ⟨capacity, [], false⟩ config clock) inputs
      ↔ EachStep RoomFor (withConfig localPeer net ⟨capacity, [], false⟩ config clock) inputs := by
  rw [← roomed_eq_iff]
  have hplaced := placed_eq_roomed
    (withConfig localPeer net ⟨capacity, [], false⟩ config clock) inputs
  constructor
  · intro h
    rw [h.placed_eq] at hplaced
    exact hplaced.symm
  · intro h
    exact ⟨hplaced.trans h, before_told_of_roomFor ((roomed_eq_iff _ _).mp h)⟩

end Emission

section OneShard

attribute [local instance] oneShard

/-- Two messages are received one after the other. -/
def receiveTwo : List (Input RsStrategy) :=
  [.subscribe "c" (rsRelayFactory {} fun _ => 7),
    .event (.sessionOpen 0 "c" "m1" (OneShard.preambleBytes OneShard.preamble) []),
    .event (.chunk 0 "c" "m1" 0 [1]),
    .event (.sessionOpen 0 "c" "m2" (OneShard.preambleBytes OneShard.preamble) []),
    .event (.chunk 0 "c" "m2" 0 [1])]

/-- With a sink for one message that nobody drains, the second payload is dropped, and the upstream
senders are told all the same. -/
theorem run_lostDelivery_full :
    let e : Engine RsStrategy Wire :=
      withConfig 0 ⟨fun _ _ => .ok (), []⟩ ⟨1, [], false⟩ {} ⟨fun n => n, 0⟩
    ¬ NoLostDelivery e receiveTwo
    ∧ reconstructed e receiveTwo = [⟨"c", "m1", [1]⟩, ⟨"c", "m2", [1]⟩]
    ∧ placed e receiveTwo = [⟨"c", "m1", [1]⟩]
    ∧ .sessionReconstructed "c" "m2" ∈ (e.run receiveTwo).net.log.map Sent.msg := by
  intro e
  have hreconstructed : reconstructed e receiveTwo = [⟨"c", "m1", [1]⟩, ⟨"c", "m2", [1]⟩] := by
    decide +kernel
  have hplaced : placed e receiveTwo = [⟨"c", "m1", [1]⟩] := by decide +kernel
  refine ⟨fun h => ?_, hreconstructed, hplaced, by decide +kernel⟩
  have heq := h.placed_eq
  rw [hreconstructed, hplaced] at heq
  cases heq

end OneShard

end Engine

end Ethp2p
