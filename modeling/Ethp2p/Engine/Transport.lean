/-
# Ethp2p.Engine.Transport — what an engine does depends on its transport's answers only.

`Wire` answers by an arbitrary function of everything submitted before, so the results about engines over
it hold whatever the transport is.  This module makes that a theorem.  Every transport has its wire
(`Wire.over`), which answers as the transport would after the same submissions.  `step_mirrors` shows that
a step over the transport and the step over its wire return the same result and leave the same state, and
that the transport has then been submitted the messages in the wire's log, in that order.

What holds of every step over `Wire` is so carried to an engine on a concrete transport.
-/
import Ethp2p.Engine.Sessions

namespace Ethp2p

section Net

variable {N : Type} [Net N]

/-- The transport after it was submitted these messages, in order. -/
def Net.submitAll (net : N) (msgs : List NetSend) : N :=
  msgs.foldl (fun net msg => (Net.send net msg).2) net

/-- The unused wire that answers as the transport would after the same submissions. -/
def Wire.over (net : N) : Wire :=
  ⟨fun log msg => (Net.send (Net.submitAll net (log.map Sent.msg)) msg).1, []⟩

/-- The wire of `net` when the transport has become `net'`: its log is what was submitted meanwhile, with
the transport's answers. -/
structure Wire.Traces (net net' : N) (w : Wire) : Prop where
  answer_eq : w.answer = (Wire.over net).answer
  submitted : net' = Net.submitAll net (w.log.map Sent.msg)
  answered : ∀ before sent after, w.log = before ++ sent :: after →
    sent.answer = (Net.send (Net.submitAll net (before.map Sent.msg)) sent.msg).1

/-- The unused wire traces the transport as it is. -/
theorem Wire.over_traces (net : N) : (Wire.over net).Traces net net := ⟨rfl, rfl, by simp [Wire.over]⟩

theorem Net.submitAll_concat (net : N) (msgs : List NetSend) (msg : NetSend) :
    Net.submitAll net (msgs ++ [msg]) = (Net.send (Net.submitAll net msgs) msg).2 :=
  List.foldl_concat ..

/-- The wire's answer is the transport's, and the wire logs what the transport was submitted. -/
theorem Wire.Traces.send {net net' : N} {w : Wire} (h : w.Traces net net') (msg : NetSend) :
    (Net.send w msg).1 = (Net.send net' msg).1 ∧ (Net.send w msg).2.Traces net (Net.send net' msg).2 := by
  have hanswer : w.answer w.log msg = (Net.send net' msg).1 := by
    rw [h.answer_eq, h.submitted]
    rfl
  refine ⟨hanswer, h.answer_eq, ?_, fun before sent after hlog => ?_⟩
  · show _ = Net.submitAll net ((w.log ++ [_]).map Sent.msg)
    rw [List.map_append, List.map_singleton, Net.submitAll_concat, ← h.submitted]
  · have hlog' : w.log ++ [⟨msg, w.answer w.log msg⟩] = before ++ sent :: after := hlog
    -- the message is the one just sent, or it was sent before
    rcases List.eq_nil_or_concat after with rfl | ⟨after', last, rfl⟩
    · obtain ⟨rfl, hsent⟩ := List.append_inj' hlog' rfl
      cases hsent
      rw [hanswer, h.submitted]
    · rw [List.concat_eq_append, ← List.cons_append, ← List.append_assoc] at hlog'
      obtain ⟨hold, -⟩ := List.append_inj' hlog' rfl
      exact h.answered before sent after' hold

/-- **What holds of the transport before, and is kept as each message is submitted, holds of it
afterwards.** -/
theorem Wire.Traces.induct {net net' : N} {w : Wire} (h : w.Traces net net') {Q : N → List Sent → Prop}
    (hnil : Q net [])
    (hconcat : ∀ before sent after net₁, w.log = before ++ sent :: after →
      sent.answer = (Net.send net₁ sent.msg).1 → Q net₁ before →
      Q (Net.send net₁ sent.msg).2 (before ++ [sent])) : Q net' w.log := by
  have hpre : ∀ before after, w.log = before ++ after →
      Q (Net.submitAll net (before.map Sent.msg)) before := by
    intro before
    induction before using List.reverseRecOn with
    | nil => exact fun _ _ => hnil
    | append_singleton before sent ih =>
      intro after hlog
      rw [List.append_assoc] at hlog
      have hstep := hconcat before sent after _ hlog (h.answered before sent after hlog) (ih _ hlog)
      rwa [List.map_append, List.map_singleton, Net.submitAll_concat]
  rw [h.submitted]
  exact hpre w.log [] (List.append_nil _).symm

end Net

namespace Engine

variable {N : Type}

/-- The engine on a wire instead of its transport. -/
def onWire (e : Engine RsStrategy N) (w : Wire) : Engine RsStrategy Wire := { e with net := w }

section Views

/-- What a step reads of the engine besides the transport is the same on the wire. -/
theorem channels_onWire (e : Engine RsStrategy N) (w : Wire) : (e.onWire w).channels = e.channels := rfl

theorem connected_onWire (e : Engine RsStrategy N) (w : Wire) : (e.onWire w).connected = e.connected := rfl

theorem openedTo_onWire (e : Engine RsStrategy N) (w : Wire) : (e.onWire w).openedTo = e.openedTo := rfl

theorem sessionPreambles_onWire (e : Engine RsStrategy N) (w : Wire) :
    (e.onWire w).sessionPreambles = e.sessionPreambles := rfl

theorem session?_onWire (e : Engine RsStrategy N) (w : Wire) (c : ChannelId) (m : MessageId) :
    (e.onWire w).session? c m = e.session? c m := rfl

/-- The bookkeeping of sessions reads the clock and the records only. -/
theorem recordSessionCreated_onWire (e : Engine RsStrategy N) (w : Wire) (c : ChannelId) (m : MessageId) :
    (e.onWire w).recordSessionCreated c m = (e.recordSessionCreated c m).onWire w := by
  have hmeta : (e.onWire w).sessionMeta = e.sessionMeta := rfl
  unfold recordSessionCreated
  rw [hmeta]
  split <;> rfl

theorem markSessionTerminal_onWire (e : Engine RsStrategy N) (w : Wire) (c : ChannelId) (m : MessageId) :
    (e.onWire w).markSessionTerminal c m = (e.markSessionTerminal c m).onWire w := by
  have hmeta : (e.onWire w).sessionMeta = e.sessionMeta := rfl
  unfold markSessionTerminal
  rw [hmeta]
  cases e.sessionMeta[(c, m)]? with
  | none => rfl
  -- a session that is terminal already stays as it was recorded
  | some info => cases info with | mk createdAt terminalAt => cases terminalAt <;> rfl

/-- A sweep submits nothing. -/
theorem maybeRunCleanup_onWire (e : Engine RsStrategy N) (w : Wire) :
    (e.onWire w).maybeRunCleanup = e.maybeRunCleanup.onWire w := by
  have hdispose : ∀ (keys : List SessionKey) (now : Instant) (e : Engine RsStrategy N),
      keys.foldl (fun e k => e.disposeSession k.1 k.2 now) (e.onWire w)
        = (keys.foldl (fun e k => e.disposeSession k.1 k.2 now) e).onWire w := by
    intro keys now
    induction keys with
    | nil => exact fun _ => rfl
    | cons k keys ih => exact fun e => ih (e.disposeSession k.1 k.2 now)
  have hsweep : ∀ (now : Instant) (e : Engine RsStrategy N),
      (e.onWire w).runCleanup now = (e.runCleanup now).onWire w := by
    intro now e
    have hkeys : (e.onWire w).expiredKeys now = e.expiredKeys now := rfl
    unfold runCleanup
    rw [hkeys, hdispose]
    rfl
  have hnow : (e.onWire w).now = (e.now.1, e.now.2.onWire w) := rfl
  unfold maybeRunCleanup
  rw [hnow]
  dsimp only
  have hnext : (e.now.2.onWire w).nextCleanup = e.now.2.nextCleanup := rfl
  rw [hnext]
  split
  · rfl
  · exact hsweep _ { e.now.2 with nextCleanup := _ }

variable [Crates]

/-- Taking a chunk submits nothing. -/
theorem takeChunk_onWire (e : Engine RsStrategy N) (w : Wire) (c : ChannelId) (m : MessageId)
    (chunkId : Nat) (payload : Bytes) :
    (e.onWire w).takeChunk c m chunkId payload
      = ((e.takeChunk c m chunkId payload).1, (e.takeChunk c m chunkId payload).2.onWire w) := by
  unfold takeChunk
  rw [channels_onWire]
  cases e.channels[c]? with
  | none => rfl
  | some ch =>
    dsimp only
    rcases ch.takeChunk m chunkId payload with ⟨err | outcome, ch'⟩ <;> rfl

/-- Parked chunks are replayed without the transport. -/
theorem replayEach_onWire (chunks : List ParkedChunk) (anyComplete : Bool) (e : Engine RsStrategy N)
    (w : Wire) (c : ChannelId) (m : MessageId) :
    replayEach c m chunks anyComplete (e.onWire w)
      = ((replayEach c m chunks anyComplete e).1, (replayEach c m chunks anyComplete e).2.onWire w) := by
  induction chunks generalizing e anyComplete with
  | nil => rfl
  | cons chunk chunks ih =>
    unfold replayEach
    rw [takeChunk_onWire]
    exact ih _ _

end Views

variable [Net N]

/-- The second state is the first one on a wire of `net`. -/
def Mirrored (net : N) (e : Engine RsStrategy N) (e' : Engine RsStrategy Wire) : Prop :=
  ∃ w : Wire, w.Traces net e.net ∧ e' = e.onWire w

/-- The second result is the first one on a wire of `net`. -/
def Mirrors {α : Type} (net : N) (x : α × Engine RsStrategy N) (y : α × Engine RsStrategy Wire) : Prop :=
  ∃ w : Wire, w.Traces net x.2.net ∧ y = (x.1, x.2.onWire w)

section Sending

variable {net : N} {w : Wire} {e : Engine RsStrategy N} {c : ChannelId} {m : MessageId}

theorem Mirrors.state {α : Type} {x : α × Engine RsStrategy N} {y : α × Engine RsStrategy Wire}
    (h : Mirrors net x y) : Mirrored net x.2 y.2 := by
  obtain ⟨w, hw, rfl⟩ := h
  exact ⟨w, hw, rfl⟩

theorem Mirrors.intro {α : Type} {a : α} (h : w.Traces net e.net) :
    Mirrors net (a, e) (a, e.onWire w) :=
  ⟨w, h, rfl⟩

/-- One submission: the wire gives the transport's answer. -/
theorem send_mirrors (h : w.Traces net e.net) (msg : NetSend) :
    Mirrors net (e.send msg) ((e.onWire w).send msg) := by
  obtain ⟨hanswer, htraces⟩ := h.send msg
  refine ⟨(Net.send w msg).2, ?_, ?_⟩
  · rw [send_eq]
    exact htraces
  · rw [send_eq, send_eq]
    show ((Net.send w msg).1.mapError _, _) = _
    rw [hanswer]
    rfl

/-- Submissions in a row, which the first refused one ends on both sides. -/
theorem sendEach_mirrors (msgs : List NetSend) (h : w.Traces net e.net) :
    Mirrors net (sendEach msgs e) (sendEach msgs (e.onWire w)) := by
  induction msgs generalizing e w with
  | nil => exact .intro h
  | cons msg msgs ih =>
    obtain ⟨w₁, h₁, hsend⟩ := send_mirrors h msg
    unfold sendEach
    rw [hsend]
    rcases hr : e.send msg with ⟨err | _, e₁⟩ <;> rw [hr] at h₁
    · exact .intro h₁
    · exact ih h₁

/-- The announcements of a channel. -/
theorem subscribe_mirrors (c : ChannelId) (factory : StrategyFactory RsStrategy) (h : w.Traces net e.net) :
    Mirrors net (e.subscribe c factory) ((e.onWire w).subscribe c factory) := by
  unfold subscribe
  rw [channels_onWire]
  split
  · exact sendEach_mirrors _ h
  · exact sendEach_mirrors (e := { e with channels := e.channels.insert c (Channel.new c factory) }) _ h

/-- The handshake to a peer. -/
theorem registerPeerAndHandshake_mirrors (peer : PeerId) (h : w.Traces net e.net) :
    Mirrors net (e.registerPeerAndHandshake peer) ((e.onWire w).registerPeerAndHandshake peer) := by
  unfold registerPeerAndHandshake
  rw [connected_onWire]
  split
  · exact .intro h
  · exact send_mirrors (e := { e with connected := e.connected.insert peer }) h _

/-- A session is opened to a peer once, so that which peers know of it is read too. -/
theorem ensureSessionOpen_mirrors (peer : PeerId) (h : w.Traces net e.net) :
    Mirrors net (e.ensureSessionOpen c m peer) ((e.onWire w).ensureSessionOpen c m peer) := by
  unfold ensureSessionOpen
  rw [openedTo_onWire, sessionPreambles_onWire]
  split
  · exact .intro h
  · cases e.sessionPreambles[(c, m)]? with
    | none => exact .intro h
    | some preamble =>
      obtain ⟨w₁, h₁, hsend⟩ := send_mirrors h (.sessionOpen peer c m preamble [])
      dsimp only
      rw [hsend]
      rcases hr : e.send (.sessionOpen peer c m preamble []) with ⟨err | _, e₁⟩ <;> rw [hr] at h₁
      · exact .intro h₁
      · exact .intro (e := { e₁ with openedTo := _ }) h₁

/-- A session is opened to the subscribers, up to the first refusal. -/
theorem openEach_mirrors (peers : List PeerId) (h : w.Traces net e.net) :
    Mirrors net (openEach c m peers e) (openEach c m peers (e.onWire w)) := by
  induction peers generalizing e w with
  | nil => exact .intro h
  | cons peer peers ih =>
    obtain ⟨w₁, h₁, hopen⟩ := ensureSessionOpen_mirrors (c := c) (m := m) peer h
    unfold openEach
    rw [hopen]
    rcases hr : e.ensureSessionOpen c m peer with ⟨err | _, e₁⟩ <;> rw [hr] at h₁
    · exact .intro h₁
    · exact ih h₁

/-- The routing updates of a session. -/
theorem routeEach_mirrors (payload : Bytes) (peers : List PeerId) (h : w.Traces net e.net) :
    Mirrors net (routeEach c m payload peers e) (routeEach c m payload peers (e.onWire w)) := by
  induction peers generalizing e w with
  | nil => exact .intro h
  | cons peer peers ih =>
    obtain ⟨w₁, h₁, hopen⟩ := ensureSessionOpen_mirrors (c := c) (m := m) peer h
    unfold routeEach
    rw [hopen]
    rcases hr : e.ensureSessionOpen c m peer with ⟨err | _, e₁⟩ <;> rw [hr] at h₁
    · exact .intro h₁
    · obtain ⟨w₂, h₂, hsend⟩ := send_mirrors h₁ (.routingUpdate peer c m payload)
      dsimp only
      rw [hsend]
      rcases hr : e₁.send (.routingUpdate peer c m payload) with ⟨err | _, e₂⟩ <;> rw [hr] at h₂
      · exact .intro h₂
      · exact ih h₂

/-- The routing updates of a round, if it has any. -/
theorem routeWork_mirrors (routing : Option BitMap) (h : w.Traces net e.net) :
    Mirrors net (routeWork c m routing e) (routeWork c m routing (e.onWire w)) := by
  cases routing with
  | none => exact .intro h
  | some routing => exact routeEach_mirrors _ _ h

variable [Crates]

/-! ## Drains -/

/-- The batch of a round: a refused chunk is refunded, and the rest of the batch is submitted all the same. -/
theorem dispatchEach_mirrors (ds : List (ChunkDispatch Nat)) (stalled : Bool)
    (h : w.Traces net e.net) :
    Mirrors net (dispatchEach c m ds stalled e) (dispatchEach c m ds stalled (e.onWire w)) := by
  induction ds generalizing e w stalled with
  | nil => exact .intro h
  | cons d ds ih =>
    obtain ⟨w₁, h₁, hopen⟩ := ensureSessionOpen_mirrors (c := c) (m := m) d.peer h
    unfold dispatchEach
    rw [hopen]
    rcases hr : e.ensureSessionOpen c m d.peer with ⟨err | _, e₁⟩ <;> rw [hr] at h₁
    · exact .intro h₁
    · obtain ⟨w₂, h₂, hsend⟩ := send_mirrors h₁ (.chunk d.peer c m d.chunkId d.payload d.handle)
      dsimp only
      rw [hsend]
      rcases hr : e₁.send (.chunk d.peer c m d.chunkId d.payload d.handle) with ⟨err | _, e₂⟩ <;>
        rw [hr] at h₂
      · exact ih true (e := e₂.modifySession c m (·.chunkSent d.peer d.handle false)) h₂
      · exact ih stalled
          (e := { e₂ with pendingSends := e₂.pendingSends.insert (c, m, d.handle) d.peer }) h₂

/-- One round of a drain.  What it polls is in the session, which is the same on the wire. -/
theorem drainRound_mirrors (h : w.Traces net e.net) :
    Mirrors net (e.drainRound c m) ((e.onWire w).drainRound c m) := by
  unfold drainRound
  rw [session?_onWire]
  cases e.session? c m with
  | none => exact .intro h
  | some session =>
    dsimp only
    split
    · exact .intro (e := e.modifySession c m fun _ => session.poll.2) h
    · obtain ⟨w₁, h₁, hroute⟩ := routeWork_mirrors (c := c) (m := m) session.poll.1.routing
        (e := e.modifySession c m fun _ => session.poll.2) h
      have hroute' : routeWork c m session.poll.1.routing
          ((e.onWire w).modifySession c m fun _ => session.poll.2) = _ := hroute
      rw [hroute']
      rcases hr : routeWork c m session.poll.1.routing (e.modifySession c m fun _ => session.poll.2) with ⟨err | _, e₁⟩ <;>
        rw [hr] at h₁
      · exact .intro h₁
      · obtain ⟨w₂, h₂, hdispatch⟩ :=
          dispatchEach_mirrors (c := c) (m := m) session.poll.1.dispatches false h₁
        dsimp only
        rw [hdispatch]
        rcases hr : dispatchEach c m session.poll.1.dispatches false e₁ with ⟨err | stalled, e₂⟩ <;>
          rw [hr] at h₂
        · exact .intro h₂
        · cases stalled <;> exact .intro h₂

/-- The rounds of a drain, with the same fuel. -/
theorem drainLoop_mirrors (fuel : Nat) (h : w.Traces net e.net) :
    Mirrors net (drainLoop c m fuel e) (drainLoop c m fuel (e.onWire w)) := by
  induction fuel generalizing e w with
  | zero => exact .intro h
  | succ fuel ih =>
    obtain ⟨w₁, h₁, hround⟩ := drainRound_mirrors (c := c) (m := m) h
    unfold drainLoop
    rw [hround]
    rcases hr : e.drainRound c m with ⟨_ | r, e₁⟩ <;> rw [hr] at h₁
    · exact ih h₁
    · exact .intro h₁

/-- A drain: its fuel is read off the session. -/
theorem drainSession_mirrors (c : ChannelId) (m : MessageId) (h : w.Traces net e.net) :
    Mirrors net (e.drainSession c m) ((e.onWire w).drainSession c m) := by
  obtain ⟨w₁, h₁, hloop⟩ := drainLoop_mirrors (c := c) (m := m) (e.drainFuel c m) h
  refine ⟨w₁, h₁, ?_⟩
  have hfuel : (e.onWire w).drainFuel c m = e.drainFuel c m := rfl
  unfold drainSession
  rw [hfuel, hloop]

/-- The drains of a channel's sessions. -/
theorem drainEach_mirrors (ms : List MessageId) (h : w.Traces net e.net) :
    Mirrors net (drainEach c ms e) (drainEach c ms (e.onWire w)) := by
  induction ms generalizing e w with
  | nil => exact .intro h
  | cons m ms ih =>
    obtain ⟨w₁, h₁, hdrain⟩ := drainSession_mirrors c m h
    unfold drainEach
    rw [hdrain]
    rcases hr : e.drainSession c m with ⟨err | _, e₁⟩ <;> rw [hr] at h₁
    · exact .intro h₁
    · exact ih h₁

/-- The drains of a channel, if it is hosted. -/
theorem drainChannel_mirrors (c : ChannelId) (h : w.Traces net e.net) :
    Mirrors net (e.drainChannel c) ((e.onWire w).drainChannel c) := by
  unfold drainChannel
  rw [channels_onWire]
  cases e.channels[c]? with
  | none => exact .intro h
  | some ch => exact drainEach_mirrors _ h

/-! ## Steps -/

omit [Crates] [Net N] in
/-- A session that was just built is recorded without the transport. -/
theorem withRelay_onWire (e : Engine RsStrategy N) (w : Wire) (c : ChannelId) (m : MessageId)
    (preamble : Bytes) (ch : Channel RsStrategy) :
    (e.onWire w).withRelay c m preamble ch = (e.withRelay c m preamble ch).onWire w :=
  recordSessionCreated_onWire { e with
    channels := e.channels.insert c ch
    sessionPreambles := e.sessionPreambles.insert (c, m) preamble } w c m

omit [Crates] in
/-- Recording a new session leaves the transport what the wire traces. -/
theorem withRelay_traces (c : ChannelId) (m : MessageId) (preamble : Bytes) (ch : Channel RsStrategy)
    (h : w.Traces net e.net) : w.Traces net (e.withRelay c m preamble ch).net := by
  obtain ⟨clock, sessionMeta, hrelay⟩ := e.withRelay_eq c m preamble ch
  rw [hrelay]
  exact h

/-- Replaying parked chunks leaves the transport alone. -/
theorem replayEach_traces (chunks : List ParkedChunk) (anyComplete : Bool) (h : w.Traces net e.net) :
    w.Traces net (replayEach c m chunks anyComplete e).2.net := by
  induction chunks generalizing e anyComplete with
  | nil => exact h
  | cons chunk chunks ih =>
    refine ih (e := (e.takeChunk c m chunk.chunkId chunk.payload).2) _ ?_
    rw [takeChunk_eq]
    exact h

/-- A decoded message is delivered, and its reconstruction announced, with any answer. -/
theorem maybeDecodeAndDeliver_mirrors (c : ChannelId) (m : MessageId) (h : w.Traces net e.net) :
    Mirrored net (e.maybeDecodeAndDeliver c m) ((e.onWire w).maybeDecodeAndDeliver c m) := by
  unfold maybeDecodeAndDeliver
  rw [session?_onWire]
  cases e.session? c m with
  | none => exact ⟨w, h, rfl⟩
  | some session =>
    have hmodify : (e.onWire w).modifySession c m (fun _ => session.decodeAndFinish.2)
        = (e.modifySession c m fun _ => session.decodeAndFinish.2).onWire w := rfl
    obtain ⟨clock, sessionMeta, hmark⟩ := markSessionTerminal_frame
      (e.modifySession c m fun _ => session.decodeAndFinish.2) c m
    dsimp only
    rw [hmodify, markSessionTerminal_onWire, hmark]
    cases session.decodeAndFinish.1 with
    | ok payload =>
      exact (send_mirrors (e := { e.modifySession c m (fun _ => session.decodeAndFinish.2) with
        clock, sessionMeta, delivered := (e.delivered.trySend ⟨c, m, payload⟩).2 }) h _).state
    | error err => exact ⟨w, h, rfl⟩

/-- A publish opens the session to the subscribers and drains it. -/
theorem publish_mirrors (c : ChannelId) (m : MessageId) (strategy : RsStrategy) (preamble : Bytes)
    (h : w.Traces net e.net) :
    Mirrors net (e.publish c m strategy preamble) ((e.onWire w).publish c m strategy preamble) := by
  cases hch : e.channels[c]? with
  | none =>
    unfold publish
    rw [channels_onWire, hch]
    exact .intro h
  | some ch =>
    rcases hstart : ch.startOriginSession m strategy with ⟨err | _, ch'⟩
    · unfold publish
      rw [channels_onWire, hch]
      simp only [hstart]
      exact .intro h
    · have hwire : (e.onWire w).channels[c]? = some ch := hch
      obtain ⟨w₁, h₁, hopen⟩ := openEach_mirrors (c := c) (m := m) ch'.subscribers.toList
        (withRelay_traces c m preamble ch' h)
      rw [publish_of_start hch hstart, publish_of_start hwire hstart, withRelay_onWire, hopen]
      rcases hr : openEach c m ch'.subscribers.toList (e.withRelay c m preamble ch') with
        ⟨err | _, e₁⟩ <;> rw [hr] at h₁
      · exact .intro h₁
      · exact drainSession_mirrors c m h₁

/-- The chunks that came before the session did. -/
theorem replayParkedChunks_mirrors (c : ChannelId) (m : MessageId) (h : w.Traces net e.net) :
    Mirrored net (e.replayParkedChunks c m) ((e.onWire w).replayParkedChunks c m) := by
  have hparked : (e.onWire w).parkedChunks = e.parkedChunks := rfl
  unfold replayParkedChunks
  rw [hparked]
  cases e.parkedChunks[(c, m)]? with
  | none => exact ⟨w, h, rfl⟩
  | some parked =>
    have hreplay := replayEach_onWire parked false
      { e with parkedChunks := e.parkedChunks.erase (c, m) } w c m
    have htaken := replayEach_traces (c := c) (m := m) parked false
      (e := { e with parkedChunks := e.parkedChunks.erase (c, m) }) h
    obtain ⟨w₁, h₁, hdrain⟩ := drainSession_mirrors c m htaken
    dsimp only
    rw [show replayEach c m parked false { e.onWire w with
      parkedChunks := e.parkedChunks.erase (c, m) } = _ from hreplay]
    dsimp only
    rw [hdrain]
    split
    · exact maybeDecodeAndDeliver_mirrors c m h₁
    · exact ⟨w₁, h₁, rfl⟩

/-- A `SessionOpen` builds a relay, drains it and replays what is parked. -/
theorem handleSessionOpen_mirrors (c : ChannelId) (m : MessageId) (preamble : Bytes)
    (h : w.Traces net e.net) :
    Mirrored net (e.handleSessionOpen c m preamble) ((e.onWire w).handleSessionOpen c m preamble) := by
  have htomb : (e.onWire w).isTombstoned c m = e.isTombstoned c m := rfl
  unfold handleSessionOpen
  rw [htomb, channels_onWire]
  split
  · exact ⟨w, h, rfl⟩
  · cases e.channels[c]? with
    | none => exact ⟨w, h, rfl⟩
    | some ch =>
      dsimp only
      rcases ch.openSession m preamble with ⟨err | _, ch'⟩
      · exact ⟨w, h, rfl⟩
      · obtain ⟨w₁, h₁, hdrain⟩ := drainSession_mirrors c m (withRelay_traces c m preamble ch' h)
        obtain ⟨w₂, h₂, hreplay⟩ := replayParkedChunks_mirrors c m h₁
        refine ⟨w₂, h₂, ?_⟩
        show (((e.onWire w).withRelay c m preamble ch').drainSession c m).2.replayParkedChunks c m = _
        rw [withRelay_onWire, hdrain]
        exact hreplay

/-- A chunk is parked or taken; if it is the last that was needed, the message is decoded. -/
theorem handleChunk_mirrors (c : ChannelId) (m : MessageId) (chunkId : Nat) (payload : Bytes)
    (h : w.Traces net e.net) :
    Mirrored net (e.handleChunk c m chunkId payload) ((e.onWire w).handleChunk c m chunkId payload) := by
  have htomb : (e.onWire w).isTombstoned c m = e.isTombstoned c m := rfl
  unfold handleChunk
  rw [htomb, session?_onWire]
  split
  · exact ⟨w, h, rfl⟩
  · split
    · exact ⟨w, h, rfl⟩
    · have htaken : w.Traces net (e.takeChunk c m chunkId payload).2.net := by
        rw [takeChunk_eq]
        exact h
      obtain ⟨w₁, h₁, hdrain⟩ := drainSession_mirrors c m htaken
      dsimp only
      rw [takeChunk_onWire]
      dsimp only
      rw [hdrain]
      split
      · exact maybeDecodeAndDeliver_mirrors c m h₁
      · exact ⟨w₁, h₁, rfl⟩

/-- The channels of a handshake, one after the other. -/
theorem enrolEach_mirrors (peer : PeerId) (cs : List ChannelId) (h : w.Traces net e.net) :
    Mirrored net (enrolEach peer cs e) (enrolEach peer cs (e.onWire w)) := by
  induction cs generalizing e w with
  | nil => exact ⟨w, h, rfl⟩
  | cons c cs ih =>
    obtain ⟨w₁, h₁, hdrain⟩ := drainChannel_mirrors (e := e.subscribePeer c peer) c h
    have hdrain' : ((e.onWire w).subscribePeer c peer).drainChannel c = _ := hdrain
    unfold enrolEach
    rw [hdrain']
    exact ih h₁

/-- The result of a chunk, if it is pending. -/
theorem resolveChunkSend_mirrors (peer : PeerId) (c : ChannelId) (m : MessageId) (token : DispatchHandle)
    (ok : Bool) (h : w.Traces net e.net) :
    Mirrored net (e.resolveChunkSend peer c m token ok)
      ((e.onWire w).resolveChunkSend peer c m token ok) := by
  have hpending : (e.onWire w).pendingSends = e.pendingSends := rfl
  unfold resolveChunkSend
  rw [hpending]
  split
  · exact (drainSession_mirrors (e := { e with
      pendingSends := e.pendingSends.erase (c, m, token) }.modifySession c m (·.chunkSent peer token ok))
      c m h).state
  · exact ⟨w, h, rfl⟩

/-- An event of the transport. -/
theorem handleEvent_mirrors (ev : NetEvent) (h : w.Traces net e.net) :
    Mirrored net (e.handleEvent ev) ((e.onWire w).handleEvent ev) := by
  cases ev with
  | handshake peer version channels name =>
    simp only [handleEvent]
    split
    · exact enrolEach_mirrors peer channels (e := { e with connected := e.connected.insert peer }) h
    · exact ⟨w, h, rfl⟩
  | subscribe peer c => exact (drainChannel_mirrors (e := e.subscribePeer c peer) c h).state
  | sessionOpen _ c m preamble _ => exact handleSessionOpen_mirrors c m preamble h
  | chunk _ c m chunkId payload => exact handleChunk_mirrors c m chunkId payload h
  | peerConnected peer => exact (registerPeerAndHandshake_mirrors peer h).state
  | chunkSendResult peer c m token ok => exact resolveChunkSend_mirrors peer c m token ok h
  | unsubscribe | routingUpdate | peerDisconnected | peerReconstructed | sessionClosed =>
    exact ⟨w, h, rfl⟩

/-- **A step over any transport is the step over its wire**: the same result, the same state, and the
transport was submitted what the wire has logged. -/
theorem step_mirrors (i : Input RsStrategy) (h : w.Traces net e.net) :
    Mirrors net (e.step i) ((e.onWire w).step i) := by
  cases i with
  | subscribe c factory => exact subscribe_mirrors c factory h
  | connect peer => exact registerPeerAndHandshake_mirrors peer h
  | publish c m strategy preamble => exact publish_mirrors c m strategy preamble h
  | recv => exact ⟨w, h, rfl⟩
  | event ev =>
    obtain ⟨w₁, h₁, hevent⟩ := handleEvent_mirrors ev h
    refine ⟨w₁, ?_, ?_⟩
    · show w₁.Traces net (e.handleEvent ev).maybeRunCleanup.net
      rw [(maybeRunCleanup_frame _).1]
      exact h₁
    · show (_, ((e.onWire w).handleEvent ev).maybeRunCleanup) = _
      rw [hevent, maybeRunCleanup_onWire]
      rfl

end Sending

end Engine

end Ethp2p
