/-
# Ethp2p.Engine.Run — inputs, runs, and the actions a step is made of.

An engine is driven by API calls, by inbound events and by the application taking messages out of
the sink (`Input`).  `Act` lists the actions those inputs are made of, each with its guard: hosting a
channel, creating a session, taking a chunk, decoding, a whole drain, disposing a session, and so on.
`step_acts` shows that every step of the engine is a sequence of actions, so a safety property is
proved once per action (`Acts.induct`) and holds of every run (`run_induct`).

`drainCalls` lists the states in which a step calls `drain_session`.  What is assumed of those calls,
and whether the step may decode and sweep, are the `Terms` the actions are taken under.
-/
import Ethp2p.Engine.Drain

namespace Ethp2p

/-- One input of an engine. -/
inductive Input (S : Type) where
  | subscribe (c : ChannelId) (factory : StrategyFactory S)
  | connect (peer : PeerId)
  | publish (c : ChannelId) (m : MessageId) (strategy : S) (preambleBytes : Bytes)
  | event (event : NetEvent)
  | recv

/-- The input has the engine register peer `p`: a `connect` call, or the transport reporting it. -/
def Input.registers {S : Type} (p : PeerId) : Input S → Bool
  | .connect peer | .event (.peerConnected peer) => peer = p
  | _ => false

/-- The input brings chunks to the session of a key: a chunk of it, or the `SessionOpen` that has the
parked ones replayed. -/
def Input.feeds {S : Type} (c : ChannelId) (m : MessageId) : Input S → Prop
  | .event (.chunk _ channel messageId ..) | .event (.sessionOpen _ channel messageId ..) =>
    channel = c ∧ messageId = m
  | _ => False

namespace Engine

section Step

variable {S N E : Type} [Net N] [Strategy S Nat BitMap E]

/-- Process one input: the API call's result, and the state after it. -/
def step (e : Engine S N) : Input S → Except EngineError Unit × Engine S N
  | .subscribe c factory => e.subscribe c factory
  | .connect peer => e.connect peer
  | .publish c m strategy preambleBytes => e.publish c m strategy preambleBytes
  | .event event => (.ok (), e.runOneStep event)
  | .recv => (.ok (), { e with delivered := e.delivered.recv.2 })

/-- Process inputs in turn. -/
def run (e : Engine S N) (inputs : List (Input S)) : Engine S N :=
  inputs.foldl (fun e i => (e.step i).2) e

/-- A run that goes on by one input. -/
theorem run_concat (e : Engine S N) (inputs : List (Input S)) (i : Input S) :
    e.run (inputs ++ [i]) = ((e.run inputs).step i).2 := by
  simp [run]

/-- What every step preserves holds after every run. -/
theorem run_induct {P : Engine S N → Prop} {inputs : List (Input S)} {e : Engine S N}
    (hstep : ∀ e, ∀ i ∈ inputs, P e → P (e.step i).2) (he : P e) : P (e.run inputs) := by
  induction inputs using List.reverseRecOn with
  | nil => exact he
  | append_singleton inputs i ih =>
    rw [run_concat]
    refine hstep _ i (by simp) (ih fun e j hj => hstep e j (by simp [hj]))

/-- Every input satisfies `P` in the state it is processed in. -/
def EachStep (P : Engine S N → Input S → Prop) : Engine S N → List (Input S) → Prop
  | _, [] => True
  | e, i :: inputs => P e i ∧ EachStep P (e.step i).2 inputs

/-- What every step that satisfies `P` preserves holds after a run all of whose steps do. -/
theorem EachStep.run {P : Engine S N → Input S → Prop} {Q : Engine S N → Prop}
    {inputs : List (Input S)} {e : Engine S N} (h : EachStep P e inputs)
    (hstep : ∀ e, ∀ i ∈ inputs, P e i → Q e → Q (e.step i).2) (he : Q e) : Q (e.run inputs) := by
  induction inputs generalizing e with
  | nil => exact he
  | cons i inputs ih =>
    exact ih h.2 (fun e j hj => hstep e j (List.mem_cons_of_mem i hj))
      (hstep e i List.mem_cons_self h.1 he)

/-- The state after one more input of a run. -/
theorem run_take_succ (e : Engine S N) {inputs : List (Input S)} {t : Nat} (ht : t < inputs.length) :
    e.run (inputs.take (t + 1)) = ((e.run (inputs.take t)).step inputs[t]).2 := by
  rw [List.take_succ_eq_append_getElem ht, run_concat]

/-- Any one step of a run all of whose steps satisfy `P`. -/
theorem EachStep.get {P : Engine S N → Input S → Prop} {inputs : List (Input S)} {e : Engine S N}
    (h : EachStep P e inputs) {t : Nat} (ht : t < inputs.length) :
    P (e.run (inputs.take t)) inputs[t] := by
  induction inputs generalizing e t with
  | nil => simp at ht
  | cons i inputs ih =>
    cases t with
    | zero => exact h.1
    | succ t => exact ih h.2 (Nat.lt_of_succ_lt_succ ht)

/-- A condition on each step of a run, taken apart where the run is. -/
theorem EachStep.append {P : Engine S N → Input S → Prop} {l l' : List (Input S)} {e : Engine S N} :
    EachStep P e (l ++ l') ↔ EachStep P e l ∧ EachStep P (e.run l) l' := by
  induction l generalizing e with
  | nil => exact (and_iff_right trivial).symm
  | cons i l ih => exact (and_congr_right' ih).trans and_assoc.symm

/-- A weaker condition. -/
theorem EachStep.mono {P P' : Engine S N → Input S → Prop} {l : List (Input S)} {e : Engine S N}
    (h : EachStep P e l) (hmono : ∀ e i, P e i → P' e i) : EachStep P' e l := by
  induction l generalizing e with
  | nil => trivial
  | cons i l ih => exact ⟨hmono e i h.1, ih h.2⟩

/-- Two conditions on the same run. -/
theorem EachStep.and {P P' : Engine S N → Input S → Prop} {l : List (Input S)} {e : Engine S N}
    (h : EachStep P e l) (h' : EachStep P' e l) : EachStep (fun e i => P e i ∧ P' e i) e l := by
  induction l generalizing e with
  | nil => trivial
  | cons i l ih => exact ⟨⟨h.1, h'.1⟩, ih h.2 h'.2⟩

/-- Whether every step satisfies `P` can be computed. -/
def EachStep.decide {P : Engine S N → Input S → Prop} [∀ e i, Decidable (P e i)] :
    ∀ (inputs : List (Input S)) (e : Engine S N), Decidable (EachStep P e inputs)
  | [], _ => .isTrue trivial
  | i :: inputs, e =>
    have := EachStep.decide (P := P) inputs (e.step i).2
    inferInstanceAs (Decidable (P e i ∧ EachStep P (e.step i).2 inputs))

instance {P : Engine S N → Input S → Prop} [∀ e i, Decidable (P e i)] (inputs : List (Input S))
    (e : Engine S N) : Decidable (EachStep P e inputs) :=
  EachStep.decide inputs e

/-- A fresh engine with the default configuration, whose transport answers by `answer`. -/
def nodeOver (answer : List Sent → NetSend → Except NetError Unit) : Engine RsStrategy Wire :=
  withConfig 0 ⟨answer, []⟩ ⟨8, [], false⟩ {} ⟨fun n => n, 0⟩

/-- A fresh engine whose transport accepts everything and whose clock advances by `tick` at every
reading. -/
def nodeTicking (tick : Duration) : Engine RsStrategy Wire :=
  withConfig 0 ⟨fun _ _ => .ok (), []⟩ ⟨8, [], false⟩ {} ⟨fun n => n * tick, 0⟩

/-! ## The drains of a step -/

/-- The drains of `drainEach`, each with the state it starts in. -/
def drainEachCalls (c : ChannelId) : List MessageId → Engine S N → List (Engine S N × SessionKey)
  | [], _ => []
  | m :: ms, e =>
    (e, c, m) :: match e.drainSession c m with
      | (.error _, _) => []
      | (.ok (), e) => drainEachCalls c ms e

/-- The drains of `drainChannel`. -/
def drainChannelCalls (e : Engine S N) (c : ChannelId) : List (Engine S N × SessionKey) :=
  match e.channels[c]? with
  | none => []
  | some ch => drainEachCalls c ch.sessions.keys e

/-- The drains of `enrolEach`. -/
def enrolEachCalls (peer : PeerId) : List ChannelId → Engine S N → List (Engine S N × SessionKey)
  | [], _ => []
  | c :: cs, e =>
    drainChannelCalls (e.subscribePeer c peer) c
      ++ enrolEachCalls peer cs ((e.subscribePeer c peer).drainChannel c).2

/-- The drain of `publish`. -/
def publishCalls (e : Engine S N) (c : ChannelId) (m : MessageId) (strategy : S)
    (preambleBytes : Bytes) : List (Engine S N × SessionKey) :=
  match e.channels[c]? with
  | none => []
  | some ch =>
    match ch.startOriginSession m strategy with
    | (.error _, _) => []
    | (.ok (), ch) =>
      let e := { e with
        channels := e.channels.insert c ch
        sessionPreambles := e.sessionPreambles.insert (c, m) preambleBytes }
      match openEach c m ch.subscribers.toList (e.recordSessionCreated c m) with
      | (.error _, _) => []
      | (.ok (), e) => [(e, c, m)]

/-- The drain of `replayParkedChunks`. -/
def replayCalls (e : Engine S N) (c : ChannelId) (m : MessageId) : List (Engine S N × SessionKey) :=
  match e.parkedChunks[(c, m)]? with
  | none => []
  | some parked =>
    [((replayEach c m parked false { e with parkedChunks := e.parkedChunks.erase (c, m) }).2, c, m)]

/-- The drains of `handleSessionOpen`. -/
def sessionOpenCalls (e : Engine S N) (c : ChannelId) (m : MessageId) (preamble : Bytes) :
    List (Engine S N × SessionKey) :=
  if e.isTombstoned c m then
    []
  else
    match e.channels[c]? with
    | none => []
    | some ch =>
      match ch.openSession m preamble with
      | (.error _, _) => []
      | (.ok (), ch) =>
        let e := { e with
          channels := e.channels.insert c ch
          sessionPreambles := e.sessionPreambles.insert (c, m) preamble }
        let e := e.recordSessionCreated c m
        (e, c, m) :: replayCalls (e.drainSession c m).2 c m

/-- The drains of one input, in order, each with the state it starts in. -/
def drainCalls (e : Engine S N) : Input S → List (Engine S N × SessionKey)
  | .publish c m strategy preambleBytes => e.publishCalls c m strategy preambleBytes
  | .event (.handshake peer version channels _) =>
    if version = protocolVersion then
      enrolEachCalls peer channels { e with connected := e.connected.insert peer }
    else
      []
  | .event (.subscribe peer c) => (e.subscribePeer c peer).drainChannelCalls c
  | .event (.sessionOpen _ c m preamble _) => e.sessionOpenCalls c m preamble
  | .event (.chunk _ c m chunkId payload) =>
    if e.isTombstoned c m || (e.session? c m).isNone then []
    else [((e.takeChunk c m chunkId payload).2, c, m)]
  | .event (.chunkSendResult peer c m token ok) =>
    if (c, m, token) ∈ e.pendingSends then
      [({ e with pendingSends := e.pendingSends.erase (c, m, token) }.modifySession c m
        (·.chunkSent peer token ok), c, m)]
    else
      []
  | _ => []

/-! ## The phases of a step -/

/-- `replayParkedChunks` up to its decode: whether it decodes, and the state so far. -/
def afterReplay (e : Engine S N) (c : ChannelId) (m : MessageId) : Bool × Engine S N :=
  match e.parkedChunks[(c, m)]? with
  | none => (false, e)
  | some parked =>
    let (anyComplete, e) :=
      replayEach c m parked false { e with parkedChunks := e.parkedChunks.erase (c, m) }
    (anyComplete, (e.drainSession c m).2)

/-- `handleSessionOpen` up to its decode. -/
def afterOpen (e : Engine S N) (c : ChannelId) (m : MessageId) (preamble : Bytes) :
    Bool × Engine S N :=
  if e.isTombstoned c m then
    (false, e)
  else
    match e.channels[c]? with
    | none => (false, e)
    | some ch =>
      match ch.openSession m preamble with
      | (.error _, ch) => (false, { e with channels := e.channels.insert c ch })
      | (.ok (), ch) =>
        let e := { e with
          channels := e.channels.insert c ch
          sessionPreambles := e.sessionPreambles.insert (c, m) preamble }
        let e := e.recordSessionCreated c m
        (e.drainSession c m).2.afterReplay c m

/-- `handleChunk` up to its decode. -/
def afterChunk (e : Engine S N) (c : ChannelId) (m : MessageId) (chunkId : Nat)
    (payload : Bytes) : Bool × Engine S N :=
  if e.isTombstoned c m then
    (false, e)
  else if (e.session? c m).isNone then
    (false, e.parkChunk c m chunkId payload)
  else
    let (outcomeComplete, e) := e.takeChunk c m chunkId payload
    (outcomeComplete, (e.drainSession c m).2)

/-- A step up to its decode: the session it goes on to decode, if any, and the state so far. -/
def beforeDecode (e : Engine S N) : Input S → Option SessionKey × Engine S N
  | .event (.sessionOpen _ c m preamble _) =>
    ((if (e.afterOpen c m preamble).1 then some (c, m) else none), (e.afterOpen c m preamble).2)
  | .event (.chunk _ c m chunkId payload) =>
    ((if (e.afterChunk c m chunkId payload).1 then some (c, m) else none),
      (e.afterChunk c m chunkId payload).2)
  | .event ev => (none, e.handleEvent ev)
  | i => (none, (e.step i).2)

/-- A step up to its cleanup check. -/
def beforeSweep (e : Engine S N) (i : Input S) : Engine S N :=
  match e.beforeDecode i with
  | (some k, e) => e.maybeDecodeAndDeliver k.1 k.2
  | (none, e) => e

/-- The replay of parked chunks, with the decoding at its end set apart. -/
theorem replayParkedChunks_eq (e : Engine S N) (c : ChannelId) (m : MessageId) :
    e.replayParkedChunks c m
      = if (e.afterReplay c m).1 then (e.afterReplay c m).2.maybeDecodeAndDeliver c m
        else (e.afterReplay c m).2 := by
  unfold replayParkedChunks afterReplay
  cases e.parkedChunks[(c, m)]? with
  | none => rfl
  | some parked => rfl

/-- A `SessionOpen`, with the decoding at its end set apart. -/
theorem handleSessionOpen_eq (e : Engine S N) (c : ChannelId) (m : MessageId) (preamble : Bytes) :
    e.handleSessionOpen c m preamble
      = if (e.afterOpen c m preamble).1 then (e.afterOpen c m preamble).2.maybeDecodeAndDeliver c m
        else (e.afterOpen c m preamble).2 := by
  unfold handleSessionOpen afterOpen
  split
  · rfl
  · cases e.channels[c]? with
    | none => rfl
    | some ch =>
      rcases hopen : ch.openSession m preamble with ⟨err | _, ch'⟩
      · simp only [hopen, Bool.false_eq_true, if_false]
      · simp only [hopen]
        exact replayParkedChunks_eq ..

/-- A chunk, with the decoding at its end set apart. -/
theorem handleChunk_eq (e : Engine S N) (c : ChannelId) (m : MessageId) (chunkId : Nat)
    (payload : Bytes) :
    e.handleChunk c m chunkId payload
      = if (e.afterChunk c m chunkId payload).1
        then (e.afterChunk c m chunkId payload).2.maybeDecodeAndDeliver c m
        else (e.afterChunk c m chunkId payload).2 := by
  unfold handleChunk afterChunk
  split
  · rfl
  · split
    · rfl
    · rfl

/-- Before its cleanup check, an event is handled. -/
theorem beforeSweep_event (e : Engine S N) (ev : NetEvent) :
    e.beforeSweep (.event ev) = e.handleEvent ev := by
  symm
  cases ev with
  | sessionOpen _ c m preamble _ =>
    refine (e.handleSessionOpen_eq c m preamble).trans ?_
    simp only [beforeSweep, beforeDecode]
    split <;> rfl
  | chunk _ c m chunkId payload =>
    refine (e.handleChunk_eq c m chunkId payload).trans ?_
    simp only [beforeSweep, beforeDecode]
    split <;> rfl
  | handshake | subscribe | unsubscribe | routingUpdate | peerDisconnected | peerConnected
  | chunkSendResult | peerReconstructed | sessionClosed => rfl

/-- **A step in three phases**: the input is handled, at most one session is decoded, and an event is
followed by the cleanup check. -/
theorem step_eq (e : Engine S N) (i : Input S) :
    (e.step i).2 = match i with
      | .event _ => (e.beforeSweep i).maybeRunCleanup
      | _ => e.beforeSweep i := by
  cases i with
  | subscribe | connect | publish | recv => rfl
  | event ev => exact congrArg maybeRunCleanup (e.beforeSweep_event ev).symm

end Step

/-! ## Actions -/

section Acts

variable [Crates] {N : Type} [Net N]

/-- The reading `now` is the last one taken. -/
def JustRead (e : Engine RsStrategy N) (now : Instant) : Prop :=
  ∃ n, e.clock.calls = n + 1 ∧ now = e.clock.reading n

/-- The messages that announce something and carry no session data. -/
def Announcement : NetSend → Prop
  | .subscribe .. | .unsubscribe .. | .sessionReconstructed .. => True
  | _ => False

/-- The input has the peer announce the channel. -/
def Announces : Input RsStrategy → PeerId → ChannelId → Prop
  | .event (.handshake peer version channels _), p, c =>
    p = peer ∧ version = protocolVersion ∧ c ∈ channels
  | .event (.subscribe peer channel), p, c => p = peer ∧ c = channel
  | _, _, _ => False

/-- The state after a relay session was opened. -/
def withRelay (e : Engine RsStrategy N) (c : ChannelId) (m : MessageId) (preamble : Bytes)
    (ch : Channel RsStrategy) : Engine RsStrategy N :=
  { e with
    channels := e.channels.insert c ch
    sessionPreambles := e.sessionPreambles.insert (c, m) preamble }.recordSessionCreated c m

omit [Crates] [Net N] in
/-- Recording a session reads the clock and writes its record. -/
theorem recordSessionCreated_frame (e : Engine RsStrategy N) (c : ChannelId) (m : MessageId) :
    ∃ clock sessionMeta, e.recordSessionCreated c m = { e with clock, sessionMeta } := by
  unfold recordSessionCreated
  split
  · exact ⟨_, _, rfl⟩
  · exact ⟨_, _, rfl⟩

omit [Crates] [Net N] in
/-- Marking a session reads the clock and writes its record. -/
theorem markSessionTerminal_frame (e : Engine RsStrategy N) (c : ChannelId) (m : MessageId) :
    ∃ clock sessionMeta, e.markSessionTerminal c m = { e with clock, sessionMeta } := by
  unfold markSessionTerminal
  split
  · exact ⟨_, _, rfl⟩
  · split
    · exact ⟨_, _, rfl⟩
    · exact ⟨_, _, rfl⟩

omit [Crates] [Net N] in
/-- A created session changes its channel, its retained preamble, the clock and its metadata. -/
theorem withRelay_eq (e : Engine RsStrategy N) (c : ChannelId) (m : MessageId)
    (preamble : Bytes) (ch : Channel RsStrategy) :
    ∃ clock sessionMeta, e.withRelay c m preamble ch = { e with
      channels := e.channels.insert c ch
      sessionPreambles := e.sessionPreambles.insert (c, m) preamble
      clock
      sessionMeta } :=
  recordSessionCreated_frame _ c m

omit [Crates] [Net N] in
/-- A new session is put into its channel. -/
theorem withRelay_channels (e : Engine RsStrategy N) (c : ChannelId) (m : MessageId)
    (preamble : Bytes) (ch : Channel RsStrategy) :
    (e.withRelay c m preamble ch).channels = e.channels.insert c ch := by
  obtain ⟨clock, sessionMeta, hrelay⟩ := e.withRelay_eq c m preamble ch
  rw [hrelay]

omit [Crates] [Net N] in
theorem subscribersOf_withRelay (e : Engine RsStrategy N) (c : ChannelId) (m : MessageId)
    (preamble : Bytes) (ch : Channel RsStrategy) :
    (e.withRelay c m preamble ch).subscribersOf c = ch.subscribers.toList := by
  rw [subscribersOf, withRelay_channels, BTreeMap.get_insert, if_pos rfl]

/-- A publish under a free id: open the new session to every subscriber, then drain it. -/
theorem publish_of_start {e : Engine RsStrategy N} {c : ChannelId} {m : MessageId}
    {strategy : RsStrategy} {ch ch' : Channel RsStrategy} (hch : e.channels[c]? = some ch)
    (hstart : ch.startOriginSession m strategy = (.ok (), ch')) (preamble : Bytes) :
    e.publish c m strategy preamble
      = match openEach c m ch'.subscribers.toList (e.withRelay c m preamble ch') with
        | (.error err, e) => (.error err, e)
        | (.ok (), e) => e.drainSession c m := by
  unfold publish
  simp only [hch, hstart]
  unfold withRelay
  rcases hr : openEach c m ch'.subscribers.toList ({ e with
    channels := e.channels.insert c ch'
    sessionPreambles := e.sessionPreambles.insert (c, m) preamble }.recordSessionCreated c m) with
    ⟨err | _, e₂⟩ <;> simp only [hr]

/-- The state after a decode, before the upstream senders are told. -/
def afterDecode (e : Engine RsStrategy N) (c : ChannelId) (m : MessageId)
    (session : Session RsStrategy) : Engine RsStrategy N :=
  let e := (e.modifySession c m fun _ => session.decodeAndFinish.2).markSessionTerminal c m
  match session.decodeAndFinish.1 with
  | .ok payload => { e with delivered := (e.delivered.trySend ⟨c, m, payload⟩).2 }
  | .error _ => e

/-- The state after a resolved send, before the drain. -/
def afterResolve (e : Engine RsStrategy N) (peer : PeerId) (c : ChannelId) (m : MessageId)
    (token : DispatchHandle) (ok : Bool) : Engine RsStrategy N :=
  { e with pendingSends := e.pendingSends.erase (c, m, token) }.modifySession c m
    (·.chunkSent peer token ok)

/-- The state after a sweep's expiries. -/
def afterSweep (e : Engine RsStrategy N) (now : Instant) : Engine RsStrategy N :=
  { e with
    tombstones := e.tombstones.filter fun _ at_ => now - at_ ≤ e.config.tombstoneTtl
    parkedChunks := (e.parkedChunks.map fun _ buf =>
      buf.filter fun ch => now - ch.parkedAt ≤ parkedChunkTtl).filter fun _ buf => !buf.isEmpty }

/-- The terms an action is taken under: what is known of a drained session, and whether the engine
may decode and sweep. -/
structure Terms (N : Type) where
  drains : Engine RsStrategy N → SessionKey → Prop
  decodes : Prop
  sweeps : Prop

/-- The terms under which anything goes. -/
abbrev Terms.any : Terms N := ⟨fun _ _ => True, True, True⟩

/-- One action of a step on input `i`, taken under `D`. -/
inductive Act (i : Input RsStrategy) (D : Terms N) :
    Engine RsStrategy N → Engine RsStrategy N → Prop
  /-- A channel is hosted. -/
  | hosted {e : Engine RsStrategy N} {c factory} (hi : i = .subscribe c factory)
      (hnew : c ∉ e.channels) :
      Act i D e { e with channels := e.channels.insert c (Channel.new c factory) }
  /-- An announcement is submitted, to a connected peer if to any. -/
  | announced {e : Engine RsStrategy N} {msg} (hmsg : Announcement msg)
      (hto : ∀ p ∈ msg.destPeer, p ∈ e.connected) :
      Act i D e { e with net := (Net.send e.net msg).2 }
  /-- A peer is marked connected and our handshake to it is submitted. -/
  | registered {e : Engine RsStrategy N} {peer} (hi : i.registers peer)
      (hnew : peer ∉ e.connected) :
      Act i D e { e with
        connected := e.connected.insert peer
        net := (Net.send e.net
          (.handshake peer protocolVersion e.channels.keys e.localPeerStr)).2 }
  /-- A peer whose handshake arrived is marked connected. -/
  | greeted {e : Engine RsStrategy N} {peer channels peerId}
      (hi : i = .event (.handshake peer protocolVersion channels peerId)) :
      Act i D e { e with connected := e.connected.insert peer }
  /-- A peer that speaks another version is not connected. -/
  | rejected {e : Engine RsStrategy N} {peer version channels peerId}
      (hi : i = .event (.handshake peer version channels peerId))
      (hversion : version ≠ protocolVersion) :
      Act i D e { e with connected := e.connected.erase peer }
  /-- A peer is enrolled in a channel it announced. -/
  | enrolled {e : Engine RsStrategy N} {c peer} (hi : Announces i peer c) : Act i D e (e.subscribePeer c peer)
  /-- A peer leaves a channel. -/
  | unsubscribed {e : Engine RsStrategy N} {c peer} (hi : i = .event (.unsubscribe peer c)) :
      Act i D e (e.unsubscribePeer c peer)
  /-- A peer is gone. -/
  | disconnected {e : Engine RsStrategy N} {peer} (hi : i = .event (.peerDisconnected peer)) :
      Act i D e (e.handlePeerDisconnected peer)
  /-- The factory was called in vain. -/
  | refusedOpen {e : Engine RsStrategy N} {c m preamble ch ch' err}
      (hch : e.channels[c]? = some ch) (hopen : ch.openSession m preamble = (.error err, ch')) :
      Act i D e { e with channels := e.channels.insert c ch' }
  /-- A relay session is created. -/
  | openedRelay {e : Engine RsStrategy N} {peer c m preamble update ch ch'}
      (hi : i = .event (.sessionOpen peer c m preamble update))
      (htomb : (c, m) ∉ e.tombstones)
      (hch : e.channels[c]? = some ch) (hopen : ch.openSession m preamble = (.ok (), ch')) :
      Act i D e (e.withRelay c m preamble ch')
  /-- An origin session is created. -/
  | startedOrigin {e : Engine RsStrategy N} {c m strategy preamble ch ch'}
      (hi : i = .publish c m strategy preamble)
      (hch : e.channels[c]? = some ch)
      (hstart : ch.startOriginSession m strategy = (.ok (), ch')) :
      Act i D e (e.withRelay c m preamble ch')
  /-- A session is opened to a subscriber. -/
  | ensured {e : Engine RsStrategy N} {c m peer} (hto : peer ∈ e.subscribersOf c) :
      Act i D e (e.ensureSessionOpen c m peer).2
  /-- A session is drained. -/
  | drained {e : Engine RsStrategy N} {c m} (hD : D.drains e (c, m)) : Act i D e (e.drainSession c m).2
  /-- A chunk is parked. -/
  | parked {e : Engine RsStrategy N} {peer c m chunkId payload} (htomb : (c, m) ∉ e.tombstones)
      (hnone : e.session? c m = none) (hi : i = .event (.chunk peer c m chunkId payload)) :
      Act i D e (e.parkChunk c m chunkId payload)
  /-- The parked chunks of a session are taken out. -/
  | unparked {e : Engine RsStrategy N} {c m} :
      Act i D e { e with parkedChunks := e.parkedChunks.erase (c, m) }
  /-- A chunk is handed to its session. -/
  | took {e : Engine RsStrategy N} {c m chunkId payload} (hi : i.feeds c m) :
      Act i D e (e.takeChunk c m chunkId payload).2
  /-- A session is decoded, marked terminal and, on success, delivered. -/
  | decoded {e : Engine RsStrategy N} {c m session} (hdecodes : D.decodes)
      (hs : e.session? c m = some session) :
      Act i D e (e.afterDecode c m session)
  /-- A chunk's send outcome is fed back. -/
  | resolved {e : Engine RsStrategy N} {peer c m token ok}
      (hi : i = .event (.chunkSendResult peer c m token ok))
      (hpending : (c, m, token) ∈ e.pendingSends) :
      Act i D e (e.afterResolve peer c m token ok)
  /-- A peer is detached from one session. -/
  | detached {e : Engine RsStrategy N} {c m peer completed}
      (hi : i = .event (.peerReconstructed peer c m) ∨ i = .event (.sessionClosed peer c m)) :
      Act i D e (e.detachSessionPeer c m peer completed)
  /-- An expired session is disposed by a sweep. -/
  | disposed {e : Engine RsStrategy N} {c m now} (hsweeps : D.sweeps)
      (hnow : e.JustRead now) :
      Act i D e (e.disposeSession c m now)
  /-- A sweep expires tombstones and parked chunks. -/
  | swept {e : Engine RsStrategy N} {now} (hsweeps : D.sweeps) (hnow : e.JustRead now) :
      Act i D e (e.afterSweep now)
  /-- The clock is read. -/
  | ticked {e : Engine RsStrategy N} : Act i D e e.now.2
  /-- The next sweep is scheduled. -/
  | scheduled {e : Engine RsStrategy N} {nextCleanup} : Act i D e { e with nextCleanup }
  /-- The application takes a message. -/
  | received {e : Engine RsStrategy N} (hi : i = .recv) :
      Act i D e { e with delivered := e.delivered.recv.2 }

/-- A sequence of actions. -/
abbrev Acts (i : Input RsStrategy) (D : Terms N) :
    Engine RsStrategy N → Engine RsStrategy N → Prop :=
  Relation.ReflTransGen (Act i D)

variable {i : Input RsStrategy} {D : Terms N} {c : ChannelId}
  {m : MessageId} {e e' : Engine RsStrategy N}

/-- What every action preserves, a sequence of actions preserves. -/
theorem Acts.induct {P : Engine RsStrategy N → Prop} (h : Acts i D e e')
    (hact : ∀ {e e'}, Act i D e e' → P e → P e') (he : P e) : P e' := by
  induction h with
  | refl => exact he
  | tail _ hs ih => exact hact hs ih

/-! ## The engine's functions are sequences of actions -/

/-- Announcements in a row, up to the first refused one. -/
theorem sendEach_acts (msgs : List NetSend) (e : Engine RsStrategy N)
    (hmsgs : ∀ msg ∈ msgs, Announcement msg ∧ ∀ p ∈ msg.destPeer, p ∈ e.connected) :
    Acts i D e (sendEach msgs e).2 := by
  induction msgs generalizing e with
  | nil => exact .refl
  | cons msg msgs ih =>
    have hact : Acts i D e { e with net := (Net.send e.net msg).2 } :=
      .single (.announced (hmsgs msg List.mem_cons_self).1 (hmsgs msg List.mem_cons_self).2)
    unfold sendEach
    simp only [send_eq]
    rcases hsend : Net.send e.net msg with ⟨err | _, net⟩ <;> rw [hsend] at hact
    · exact hact
    · exact hact.trans (ih _ fun msg' h => hmsgs msg' (List.mem_cons_of_mem msg h))

/-- The actions of `subscribe`. -/
theorem subscribe_acts (c : ChannelId) (factory : StrategyFactory RsStrategy)
    (e : Engine RsStrategy N) : Acts (.subscribe c factory) D e (e.subscribe c factory).2 := by
  have hmsgs : ∀ msg ∈ e.connected.toList.map fun peer => NetSend.subscribe peer c,
      Announcement msg ∧ ∀ p ∈ msg.destPeer, p ∈ e.connected := by
    intro msg hmsg
    obtain ⟨p, hp, rfl⟩ := List.mem_map.mp hmsg
    refine ⟨trivial, fun q hq => ?_⟩
    cases hq
    exact Std.ExtTreeSet.mem_toList.mp hp
  unfold subscribe
  dsimp only
  split
  · exact sendEach_acts _ e hmsgs
  case isFalse hnew =>
    exact (Relation.ReflTransGen.single (Act.hosted rfl hnew)).trans (sendEach_acts _ _ hmsgs)

/-- The actions of a connect: none if the peer is connected. -/
theorem registerPeerAndHandshake_acts (peer : PeerId) (e : Engine RsStrategy N)
    (hi : i.registers peer) : Acts i D e (e.registerPeerAndHandshake peer).2 := by
  unfold registerPeerAndHandshake
  split
  · exact .refl
  case isFalse hnew =>
    rw [send_eq]
    exact .single (.registered hi hnew)

/-- The `SessionOpen`s to a channel's subscribers. -/
theorem openEach_acts (c : ChannelId) (m : MessageId) (peers : List PeerId)
    (e : Engine RsStrategy N) (hto : ∀ p ∈ peers, p ∈ e.subscribersOf c) :
    Acts i D e (openEach c m peers e).2 := by
  induction peers generalizing e with
  | nil => exact .refl
  | cons peer peers ih =>
    have hact : Acts i D e (e.ensureSessionOpen c m peer).2 :=
      .single (.ensured (hto peer List.mem_cons_self))
    have hsame := (ensureSessionOpen_same e c m peer).1
    unfold openEach
    rcases h : e.ensureSessionOpen c m peer with ⟨err | _, e1⟩ <;> rw [h] at hact hsame
    · exact hact
    · refine hact.trans (ih e1 fun p hp => ?_)
      rw [subscribersOf_congr hsame]
      exact hto p (List.mem_cons_of_mem peer hp)

/-- The actions of `publish`. -/
theorem publish_acts (c : ChannelId) (m : MessageId) (strategy : RsStrategy)
    (preamble : Bytes) (e : Engine RsStrategy N)
    (hD : ∀ call ∈ e.publishCalls c m strategy preamble, D.drains call.1 call.2) :
    Acts (.publish c m strategy preamble) D e (e.publish c m strategy preamble).2 := by
  unfold publish
  unfold publishCalls at hD
  cases hch : e.channels[c]? with
  | none => exact .refl
  | some ch =>
    simp only [hch] at hD ⊢
    rcases hstart : ch.startOriginSession m strategy with ⟨err | _, ch'⟩
    · exact .refl
    · have hact : Acts (.publish c m strategy preamble) D e (e.withRelay c m preamble ch') :=
        .single (.startedOrigin rfl hch hstart)
      have hopen := openEach_acts (i := .publish c m strategy preamble) (D := D) c m
        ch'.subscribers.toList (e.withRelay c m preamble ch') fun p hp => by
          rwa [subscribersOf_withRelay]
      have hboth := hact.trans hopen
      simp only [hstart] at hD ⊢
      unfold withRelay at hboth
      rcases h : openEach c m ch'.subscribers.toList _ with ⟨err | _, e1⟩ <;> rw [h] at hboth hD
      · exact hboth
      · exact hboth.tail (.drained (hD (e1, c, m) List.mem_cons_self))

/-- The drains of a channel, one session after the other. -/
theorem drainEach_acts (c : ChannelId) (ms : List MessageId) (e : Engine RsStrategy N)
    (hD : ∀ call ∈ drainEachCalls c ms e, D.drains call.1 call.2) : Acts i D e (drainEach c ms e).2 := by
  induction ms generalizing e with
  | nil => exact .refl
  | cons m ms ih =>
    unfold drainEachCalls at hD
    have hact : Acts i D e (e.drainSession c m).2 :=
      .single (.drained (hD (e, c, m) List.mem_cons_self))
    unfold drainEach
    rcases h : e.drainSession c m with ⟨err | _, e1⟩ <;> rw [h] at hact hD
    · exact hact
    · exact hact.trans (ih e1 fun call hcall => hD call (List.mem_cons_of_mem _ hcall))

/-- The drains of a channel, if it is hosted. -/
theorem drainChannel_acts (c : ChannelId) (e : Engine RsStrategy N)
    (hD : ∀ call ∈ e.drainChannelCalls c, D.drains call.1 call.2) : Acts i D e (e.drainChannel c).2 := by
  unfold drainChannel
  unfold drainChannelCalls at hD
  cases hch : e.channels[c]? with
  | none => exact .refl
  | some ch =>
    rw [hch] at hD
    exact drainEach_acts c _ e hD

/-- A peer is enrolled in each channel it announced, which is then drained. -/
theorem enrolEach_acts (peer : PeerId) (cs : List ChannelId) (e : Engine RsStrategy N)
    (hi : ∀ c ∈ cs, Announces i peer c)
    (hD : ∀ call ∈ enrolEachCalls peer cs e, D.drains call.1 call.2) :
    Acts i D e (enrolEach peer cs e) := by
  induction cs generalizing e with
  | nil => exact .refl
  | cons c cs ih =>
    have hact : Acts i D e (e.subscribePeer c peer) := .single (.enrolled (hi c List.mem_cons_self))
    have hdrain := drainChannel_acts (i := i) (D := D) c (e.subscribePeer c peer) fun call hcall =>
      hD call (List.mem_append_left _ hcall)
    exact (hact.trans hdrain).trans (ih _ (fun c' hc' => hi c' (List.mem_cons_of_mem c hc'))
      fun call hcall => hD call (List.mem_append_right _ hcall))

/-- A decoding, and the announcement of it. -/
theorem maybeDecodeAndDeliver_acts (hdecodes : D.decodes) (c : ChannelId) (m : MessageId)
    (e : Engine RsStrategy N) : Acts i D e (e.maybeDecodeAndDeliver c m) := by
  unfold maybeDecodeAndDeliver
  cases hs : e.session? c m with
  | none => exact .refl
  | some session =>
    have hact : Acts i D e (e.afterDecode c m session) := .single (.decoded hdecodes hs)
    unfold afterDecode at hact
    dsimp only at hact ⊢
    cases hdec : session.decodeAndFinish.1 with
    | error err => simpa only [hdec] using hact
    | ok payload =>
      simp only [hdec] at hact ⊢
      rw [send_eq]
      exact hact.tail (.announced trivial (by simp [NetSend.destPeer]))

/-- Each parked chunk is taken by the session. -/
theorem replayEach_acts (hi : i.feeds c m) (chunks : List ParkedChunk)
    (anyComplete : Bool) (e : Engine RsStrategy N) :
    Acts i D e (replayEach c m chunks anyComplete e).2 := by
  induction chunks generalizing e anyComplete with
  | nil => exact .refl
  | cons chunk chunks ih =>
    have hact : Acts i D e (e.takeChunk c m chunk.chunkId chunk.payload).2 := .single (.took hi)
    exact hact.trans (ih _ _)

/-- The actions of a replay up to the decoding. -/
theorem afterReplay_acts (hi : i.feeds c m) (e : Engine RsStrategy N)
    (hD : ∀ call ∈ e.replayCalls c m, D.drains call.1 call.2) :
    Acts i D e (e.afterReplay c m).2 := by
  unfold afterReplay
  unfold replayCalls at hD
  cases hparked : e.parkedChunks[(c, m)]? with
  | none => exact .refl
  | some parked =>
    rw [hparked] at hD
    dsimp only
    have hact : Acts i D e { e with parkedChunks := e.parkedChunks.erase (c, m) } := .single .unparked
    exact (hact.trans (replayEach_acts hi parked false _)).tail (.drained (hD _ List.mem_cons_self))

/-- The actions of a `SessionOpen` up to the decoding. -/
theorem afterOpen_acts (peer : PeerId) (c : ChannelId) (m : MessageId)
    (preamble update : Bytes) (e : Engine RsStrategy N)
    (hD : ∀ call ∈ e.sessionOpenCalls c m preamble, D.drains call.1 call.2) :
    Acts (.event (.sessionOpen peer c m preamble update)) D e (e.afterOpen c m preamble).2 := by
  unfold afterOpen
  unfold sessionOpenCalls at hD
  split
  · exact .refl
  case isFalse htomb =>
    rw [if_neg htomb] at hD
    cases hch : e.channels[c]? with
    | none => exact .refl
    | some ch =>
      simp only [hch] at hD ⊢
      rcases hopen : ch.openSession m preamble with ⟨err | _, ch'⟩
      · exact .single (.refusedOpen hch hopen)
      · have hact : Acts (.event (.sessionOpen peer c m preamble update)) D e
            (e.withRelay c m preamble ch') :=
          .single (.openedRelay rfl (by simpa [isTombstoned] using htomb) hch hopen)
        simp only [hopen] at hD ⊢
        exact (hact.tail (.drained (hD _ List.mem_cons_self))).trans
          (afterReplay_acts (i := .event (.sessionOpen peer c m preamble update)) ⟨rfl, rfl⟩ _
            fun call hcall => hD call (List.mem_cons_of_mem _ hcall))

/-- The actions of a chunk up to the decoding. -/
theorem afterChunk_acts (peer : PeerId) (c : ChannelId) (m : MessageId) (chunkId : Nat)
    (payload : Bytes) (e : Engine RsStrategy N)
    (hD : ∀ call ∈ e.drainCalls (.event (.chunk peer c m chunkId payload)),
      D.drains call.1 call.2) :
    Acts (.event (.chunk peer c m chunkId payload)) D e (e.afterChunk c m chunkId payload).2 := by
  unfold afterChunk
  simp only [drainCalls] at hD
  split
  · exact .refl
  case isFalse htomb =>
    split
    case isTrue hnone =>
      exact .single (.parked (by simpa [isTombstoned] using htomb) (by simpa using hnone) rfl)
    case isFalse hsome =>
      dsimp only
      rw [if_neg (by simp [htomb, hsome])] at hD
      have hact : Acts (.event (.chunk peer c m chunkId payload)) D e
          (e.takeChunk c m chunkId payload).2 := .single (.took ⟨rfl, rfl⟩)
      exact hact.tail (.drained (hD _ List.mem_cons_self))

/-- The actions of a chunk's result: none unless it is pending. -/
theorem resolveChunkSend_acts (peer : PeerId) (c : ChannelId) (m : MessageId)
    (token : DispatchHandle) (ok : Bool) (e : Engine RsStrategy N)
    (hD : ∀ call ∈ e.drainCalls (.event (.chunkSendResult peer c m token ok)), D.drains call.1 call.2) :
    Acts (.event (.chunkSendResult peer c m token ok)) D e (e.resolveChunkSend peer c m token ok) := by
  unfold resolveChunkSend
  simp only [drainCalls] at hD
  split
  case isTrue hpending =>
    rw [if_pos hpending] at hD
    exact (Relation.ReflTransGen.single (.resolved rfl hpending)).tail
      (.drained (hD _ List.mem_cons_self))
  case isFalse => exact .refl

/-- **What a step does before it decodes is a sequence of actions**, whose drains are the drains of
the step. -/
theorem beforeDecode_acts (i : Input RsStrategy) (e : Engine RsStrategy N)
    (hD : ∀ call ∈ e.drainCalls i, D.drains call.1 call.2) : Acts i D e (e.beforeDecode i).2 := by
  cases i with
  | subscribe c factory => exact subscribe_acts c factory e
  | connect peer => exact registerPeerAndHandshake_acts peer e (by simp [Input.registers])
  | publish c m strategy preamble => exact publish_acts c m strategy preamble e hD
  | recv => exact .single (.received rfl)
  | event ev =>
    cases ev with
    | handshake peer version channels peerId =>
      simp only [beforeDecode, handleEvent]
      -- a peer of another version is not enrolled
      by_cases hversion : version = protocolVersion
      · have hact : Acts (.event (.handshake peer version channels peerId)) D e
            { e with connected := e.connected.insert peer } :=
          .single (.greeted (by rw [hversion]))
        simp only [drainCalls, if_pos hversion] at hD ⊢
        exact hact.trans (enrolEach_acts peer channels _ (fun c hc => ⟨rfl, hversion, hc⟩) hD)
      · simp only [if_neg hversion]
        exact .single (.rejected rfl hversion)
    | subscribe peer c =>
      have hact : Acts (.event (.subscribe peer c)) D e (e.subscribePeer c peer) :=
        .single (.enrolled ⟨rfl, rfl⟩)
      exact hact.trans (drainChannel_acts c _ hD)
    | unsubscribe peer c => exact .single (.unsubscribed rfl)
    | sessionOpen peer c m preamble update => exact afterOpen_acts peer c m preamble update e hD
    | routingUpdate => exact .refl
    | chunk peer c m chunkId payload => exact afterChunk_acts peer c m chunkId payload e hD
    | peerDisconnected peer => exact .single (.disconnected rfl)
    | peerConnected peer =>
      exact registerPeerAndHandshake_acts peer e (by simp [Input.registers])
    | chunkSendResult peer c m token ok => exact resolveChunkSend_acts peer c m token ok e hD
    | peerReconstructed peer c m => exact .single (.detached (.inl rfl))
    | sessionClosed peer c m => exact .single (.detached (.inr rfl))

/-- A step up to its cleanup check is a sequence of actions. -/
theorem beforeSweep_acts (hdecodes : D.decodes) (i : Input RsStrategy) (e : Engine RsStrategy N)
    (hD : ∀ call ∈ e.drainCalls i, D.drains call.1 call.2) : Acts i D e (e.beforeSweep i) := by
  have hacts := beforeDecode_acts i e hD
  unfold beforeSweep
  rcases h : e.beforeDecode i with ⟨_ | k, e1⟩ <;> rw [h] at hacts
  · exact hacts
  · exact hacts.trans (maybeDecodeAndDeliver_acts hdecodes k.1 k.2 e1)

omit [Crates] [Net N] in
/-- Disposals leave the connections, the sink, the transport, the clock and the configuration alone. -/
theorem disposeEach_frame (keys : List SessionKey) (now : Instant) (e : Engine RsStrategy N) :
    ∃ channels sessionMeta sessionPreambles openedTo parkedChunks pendingSends tombstones,
      keys.foldl (fun e k => e.disposeSession k.1 k.2 now) e = { e with
        channels, sessionMeta, sessionPreambles, openedTo, parkedChunks, pendingSends, tombstones } := by
  induction keys generalizing e with
  | nil => exact ⟨_, _, _, _, _, _, _, rfl⟩
  | cons k keys ih =>
    obtain ⟨channels, sessionMeta, sessionPreambles, openedTo, parkedChunks, pendingSends, tombstones,
      h⟩ := ih (e.disposeSession k.1 k.2 now)
    exact ⟨channels, sessionMeta, sessionPreambles, openedTo, parkedChunks, pendingSends, tombstones, h⟩

omit [Crates] [Net N] in
/-- Disposing reads no clock: a sweep reads it once. -/
theorem disposeEach_clock (keys : List SessionKey) (now : Instant) (e : Engine RsStrategy N) :
    (keys.foldl (fun e k => e.disposeSession k.1 k.2 now) e).clock = e.clock := by
  obtain ⟨_, _, _, _, _, _, _, h⟩ := disposeEach_frame keys now e
  rw [h]

omit [Crates] [Net N] in
/-- A sweep neither sends nor delivers. -/
theorem runCleanup_frame (e : Engine RsStrategy N) (now : Instant) :
    (e.runCleanup now).net = e.net ∧ (e.runCleanup now).delivered = e.delivered := by
  obtain ⟨_, _, _, _, _, _, _, h⟩ := disposeEach_frame (e.expiredKeys now) now e
  unfold runCleanup
  rw [h]
  exact ⟨rfl, rfl⟩

omit [Crates] [Net N] in
/-- The cleanup check sends nothing and delivers nothing. -/
theorem maybeRunCleanup_frame (e : Engine RsStrategy N) :
    e.maybeRunCleanup.net = e.net ∧ e.maybeRunCleanup.delivered = e.delivered := by
  unfold maybeRunCleanup
  dsimp only
  split
  · exact ⟨rfl, rfl⟩
  · exact runCleanup_frame _ _

/-- The expired sessions are disposed one after the other, at the time that was read. -/
theorem disposeEach_acts (hsweeps : D.sweeps) (keys : List SessionKey) (now : Instant)
    (e : Engine RsStrategy N) (hnow : e.JustRead now) :
    Acts i D e (keys.foldl (fun e k => e.disposeSession k.1 k.2 now) e) := by
  induction keys generalizing e with
  | nil => exact .refl
  | cons k keys ih =>
    have hact : Acts i D e (e.disposeSession k.1 k.2 now) := .single (.disposed hsweeps hnow)
    exact hact.trans (ih _ hnow)

/-- The actions of a sweep. -/
theorem runCleanup_acts (hsweeps : D.sweeps) (now : Instant) (e : Engine RsStrategy N)
    (hnow : e.JustRead now) : Acts i D e (e.runCleanup now) := by
  refine (disposeEach_acts hsweeps (e.expiredKeys now) now e hnow).tail (.swept hsweeps ?_)
  unfold JustRead
  rw [disposeEach_clock]
  exact hnow

/-- A sweep is a sequence of actions. -/
theorem maybeRunCleanup_acts (hsweeps : D.sweeps) (e : Engine RsStrategy N) :
    Acts i D e e.maybeRunCleanup := by
  unfold maybeRunCleanup
  have htick : Acts i D e e.now.2 := .single .ticked
  dsimp only
  split
  · exact htick
  · exact (htick.tail .scheduled).trans (runCleanup_acts hsweeps _ _ ⟨e.clock.calls, rfl, rfl⟩)

/-- **Every step is a sequence of actions.** -/
theorem step_acts_of_drains (hdecodes : D.decodes) (hsweeps : D.sweeps) (i : Input RsStrategy)
    (e : Engine RsStrategy N) (hD : ∀ call ∈ e.drainCalls i, D.drains call.1 call.2) :
    Acts i D e (e.step i).2 := by
  have hacts := beforeSweep_acts hdecodes i e hD
  rw [step_eq]
  cases i with
  | event ev => exact hacts.trans (maybeRunCleanup_acts hsweeps _)
  | subscribe | connect | publish | recv => exact hacts

/-- Every step is a sequence of actions, with nothing said about its drains. -/
theorem step_acts (i : Input RsStrategy) (e : Engine RsStrategy N) :
    Acts i Terms.any e (e.step i).2 :=
  step_acts_of_drains trivial trivial i e fun _ _ => trivial

/-- **What every submission keeps of the transport, actions keep.** -/
theorem Acts.net {Q : N → Prop} (h : Acts i D e e') (hsend : ∀ net msg, Q net → Q (Net.send net msg).2)
    (he : Q e.net) : Q e'.net := by
  refine h.induct (P := fun e => Q e.net) (fun {e e'} hact he => ?_) he
  cases hact with
  | announced | registered => exact hsend e.net _ he
  | ensured hto => exact (ensureSessionOpen_steps e _ _ _ (.inl hto)).net hsend he
  | drained => exact (drainSession_steps e _ _).net hsend he
  | openedRelay | startedOrigin =>
    obtain ⟨clock, sessionMeta, h⟩ := withRelay_eq e _ _ _ _
    rw [h]
    exact he
  | took =>
    unfold takeChunk
    split
    · exact he
    · split <;> exact he
  | @decoded c m session _ _ =>
    unfold afterDecode
    obtain ⟨clock, sessionMeta, h⟩ :=
      markSessionTerminal_frame (e.modifySession c m fun _ => session.decodeAndFinish.2) c m
    rw [h]
    dsimp only
    split <;> exact he
  | hosted | greeted | rejected | enrolled | unsubscribed | disconnected | refusedOpen | parked | unparked
  | resolved | detached | disposed | swept | ticked | scheduled | received => exact he

/-- What every submission keeps of the transport, a step keeps. -/
theorem step_net {Q : N → Prop} (hsend : ∀ net msg, Q net → Q (Net.send net msg).2)
    (i : Input RsStrategy) (he : Q e.net) : Q (e.step i).2.net :=
  (step_acts i e).net hsend he

/-! ## The states drains start in -/

/-- Each drain of a channel starts in a state that the step's actions lead to. -/
theorem drainEachCalls_acts (c : ChannelId) (ms : List MessageId) (e : Engine RsStrategy N) :
    ∀ call ∈ drainEachCalls c ms e, Acts i Terms.any e call.1 := by
  induction ms generalizing e with
  | nil => simp [drainEachCalls]
  | cons m ms ih =>
    have hdrain : Acts i Terms.any e (e.drainSession c m).2 := .single (.drained trivial)
    unfold drainEachCalls
    rw [List.forall_mem_cons]
    refine ⟨.refl, fun call hcall => ?_⟩
    rcases hr : e.drainSession c m with ⟨err | _, e₁⟩ <;> rw [hr] at hcall hdrain
    · cases hcall
    · exact hdrain.trans (ih e₁ call hcall)

theorem drainChannelCalls_acts (c : ChannelId) (e : Engine RsStrategy N) :
    ∀ call ∈ e.drainChannelCalls c, Acts i Terms.any e call.1 := by
  unfold drainChannelCalls
  split
  · simp
  · exact drainEachCalls_acts c _ e

/-- Each drain of an enrolment starts in a state that the step's actions lead to. -/
theorem enrolEachCalls_acts (peer : PeerId) (cs : List ChannelId) (e : Engine RsStrategy N)
    (hi : ∀ c ∈ cs, Announces i peer c) :
    ∀ call ∈ enrolEachCalls peer cs e, Acts i Terms.any e call.1 := by
  induction cs generalizing e with
  | nil => simp [enrolEachCalls]
  | cons c cs ih =>
    have henrol : Acts i Terms.any e (e.subscribePeer c peer) := .single (.enrolled (hi c List.mem_cons_self))
    have hdrain : Acts i Terms.any _ ((e.subscribePeer c peer).drainChannel c).2 :=
      drainChannel_acts c _ fun _ _ => trivial
    intro call hcall
    rcases List.mem_append.mp hcall with hcall | hcall
    · exact henrol.trans (drainChannelCalls_acts c _ call hcall)
    · exact (henrol.trans hdrain).trans (ih _ (fun c' hc' => hi c' (List.mem_cons_of_mem c hc')) call hcall)

/-- The drain of a publish starts in a state that the step's actions lead to. -/
theorem publishCalls_acts (c : ChannelId) (m : MessageId) (strategy : RsStrategy) (preamble : Bytes)
    (e : Engine RsStrategy N) : ∀ call ∈ e.publishCalls c m strategy preamble,
    Acts (.publish c m strategy preamble) Terms.any e call.1 := by
  unfold publishCalls
  intro call hcall
  split at hcall
  · cases hcall
  case h_2 ch hch =>
    split at hcall
    · cases hcall
    case h_2 ch' hstart =>
      have hopen := openEach_acts (i := .publish c m strategy preamble) (D := Terms.any) c m
        ch'.subscribers.toList (e.withRelay c m preamble ch') fun p hp => by rwa [subscribersOf_withRelay]
      dsimp only at hcall
      split at hcall
      · cases hcall
      case h_2 e₁ hr =>
        rw [withRelay, hr] at hopen
        rw [List.mem_singleton.mp hcall]
        exact (Relation.ReflTransGen.single (.startedOrigin rfl hch hstart)).trans hopen

/-- The drain of a replay starts in a state that the step's actions lead to. -/
theorem replayCalls_acts {c : ChannelId} {m : MessageId} (hi : i.feeds c m) (e : Engine RsStrategy N) :
    ∀ call ∈ e.replayCalls c m, Acts i Terms.any e call.1 := by
  unfold replayCalls
  intro call hcall
  split at hcall
  · cases hcall
  case h_2 parked hparked =>
    rw [List.mem_singleton.mp hcall]
    exact (Relation.ReflTransGen.single .unparked).trans (replayEach_acts hi parked false _)

/-- Each drain of a `SessionOpen` starts in a state that the step's actions lead to. -/
theorem sessionOpenCalls_acts (peer : PeerId) (c : ChannelId) (m : MessageId) (preamble update : Bytes)
    (e : Engine RsStrategy N) : ∀ call ∈ e.sessionOpenCalls c m preamble,
    Acts (.event (.sessionOpen peer c m preamble update)) Terms.any e call.1 := by
  unfold sessionOpenCalls
  split
  · simp
  case isFalse htomb =>
    cases hch : e.channels[c]? with
    | none => simp
    | some ch =>
      simp only
      rcases hopen : ch.openSession m preamble with ⟨err | _, ch'⟩
      · simp
      · have hact : Acts (.event (.sessionOpen peer c m preamble update)) Terms.any e
            (e.withRelay c m preamble ch') :=
          .single (.openedRelay rfl (by simpa [isTombstoned] using htomb) hch hopen)
        intro call hcall
        rcases List.mem_cons.mp hcall with rfl | hcall
        · exact hact
        · have hreplay := replayCalls_acts (i := .event (.sessionOpen peer c m preamble update)) ⟨rfl, rfl⟩
            ((e.withRelay c m preamble ch').drainSession c m).2 call hcall
          exact (hact.tail (.drained trivial)).trans hreplay

/-- **A drain starts in a state that the actions of its step lead to.** -/
theorem drainCalls_acts (i : Input RsStrategy) (e : Engine RsStrategy N) :
    ∀ call ∈ e.drainCalls i, Acts i Terms.any e call.1 := by
  cases i with
  | subscribe | connect | recv => simp [drainCalls]
  | publish c m strategy preamble => exact publishCalls_acts c m strategy preamble e
  | event ev =>
    cases ev with
    | handshake peer version channels peerId =>
      simp only [drainCalls]
      split
      case isTrue hversion =>
        have hgreet : Acts (.event (.handshake peer version channels peerId)) Terms.any e
            { e with connected := e.connected.insert peer } :=
          .single (.greeted (by rw [hversion]))
        have hannounces : ∀ c ∈ channels,
            Announces (.event (.handshake peer version channels peerId)) peer c :=
          fun c hc => ⟨rfl, hversion, hc⟩
        exact fun call hcall => hgreet.trans (enrolEachCalls_acts peer channels _ hannounces call hcall)
      case isFalse => simp
    -- the peer is enrolled before the channel is drained
    | subscribe peer c =>
      have henrol : Acts (.event (.subscribe peer c)) Terms.any e (e.subscribePeer c peer) :=
        .single (.enrolled ⟨rfl, rfl⟩)
      exact fun call hcall => henrol.trans (drainChannelCalls_acts c _ call hcall)
    | sessionOpen peer c m preamble update => exact sessionOpenCalls_acts peer c m preamble update e
    -- the chunk is taken before its session is drained
    | chunk peer c m chunkId payload =>
      intro call hcall
      simp only [drainCalls] at hcall
      split at hcall
      · cases hcall
      · rw [List.mem_singleton.mp hcall]
        exact .single (.took ⟨rfl, rfl⟩)
    -- the flight has landed before its session is drained
    | chunkSendResult peer c m token ok =>
      intro call hcall
      simp only [drainCalls] at hcall
      split at hcall
      case isTrue hpending =>
        rw [List.mem_singleton.mp hcall]
        exact .single (.resolved rfl hpending)
      case isFalse => cases hcall
    | unsubscribe | routingUpdate | peerDisconnected | peerConnected | peerReconstructed | sessionClosed =>
      simp [drainCalls]

end Acts

end Engine

end Ethp2p
