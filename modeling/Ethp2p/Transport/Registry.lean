/-
# Ethp2p.Transport.Registry — how a node's peers come and go.

`Conn.Move` lists what the tasks of one connection can do, and `QuicNet.Step` what a node can do; `task_step` says
that there is nothing else.  Ids are unique as long as the counter does not wrap (`Numbered`), so the events of an
id are the events of one connection.

For each connection `Attended` ties together how far its registration has come, whether its sender is in the
routing table, and the events of its peer so far: nothing before it was announced, then the announcement, and at
most one report of its loss.
-/
import Ethp2p.Transport.Node

namespace Ethp2p

variable [Message Bcast] [Message Sess] [Message Header] [Message ChunkIdent]

/-! ## Steps -/

omit [Message Bcast] [Message Sess] [Message Header] [Message ChunkIdent] in
/-- Only the local command goes to nobody. -/
theorem NetSend.command_of_destPeer {msg : NetSend} (h : msg.destPeer = none) :
    ∃ channel messageId, msg = .sessionReconstructed channel messageId := by
  cases msg with
  | sessionReconstructed channel messageId => exact ⟨channel, messageId, rfl⟩
  | handshake | subscribe | unsubscribe | sessionOpen | routingUpdate | chunk => cases h

/-- What the tasks of a connection do, apart from what concerns the routing table, and the events they put into
the inbound queue; `known` are the sessions that were reconstructed here. -/
inductive Conn.Move (known : ChannelId × MessageId → Prop) (conn : Conn) : Conn → List NetEvent → Prop
  | announced (hphase : conn.phase = .registered) :
      Move known conn { conn with phase := .running } [.peerConnected conn.peer]
  | took {msg queue} (hphase : conn.phase = .running) (hidle : conn.writing = none)
      (hqueue : conn.queue = msg :: queue) :
      Move known conn { conn with queue, writing := some msg } []
  | wrote {msg fate ok out events watched} (hwriting : conn.writing = some msg)
      (hwrite : conn.out.writeOutboundOr msg fate = (ok, out, events))
      (hwatched : watched
        = if ok then conn.watched ++ (msg.opened.map (conn.out.streams.length, ·)).toList else conn.watched) :
      Move known conn { conn with writing := none, out, watched } events
  | heard {w stream channel messageId events} (hwatched : conn.watched[w]? = some (stream, channel, messageId))
      (hevents : events = [] ∨ events = [.peerReconstructed conn.peer channel messageId]
        ∨ events = [.sessionClosed conn.peer channel messageId]) :
      Move known conn { conn with watched := conn.watched.eraseIdx w } events
  | accepted {stream} (hphase : conn.phase = .running) (haccepting : conn.accepting = true)
      (hnew : ∀ reader ∈ conn.readers, reader.stream ≠ stream) :
      Move known conn { conn with readers := conn.readers ++ [{ stream }] } []
  | arrived {r reader bytes} (hreader : conn.readers[r]? = some reader) :
      Move known conn { conn with
        readers := conn.readers.set r { reader with received := reader.received ++ bytes } } []
  | emitted {r reader event} (hreader : conn.readers[r]? = some reader) (hopen : reader.ended = false)
      (hevent : (reader.events conn.peer conn.expected)[reader.emitted]? = some event) :
      Move known conn { conn with
        readers := conn.readers.set r { reader with emitted := reader.emitted + 1 } } [event]
  | ended {r reader stopped closed} (hreader : conn.readers[r]? = some reader)
      (hstopped : stopped = reader.stopped
        ∨ ∃ key, reader.key conn.peer conn.expected = some key ∧ known key) :
      Move known conn { conn with
        closed, readers := conn.readers.set r { reader with stopped, ended := true } } []
  | reported (hlost : conn.accepting = false) (hfirst : conn.reported = false) :
      Move known conn { conn with reported := true } [.peerDisconnected conn.peer]

/-- What is waiting to be written to the peer. -/
def Conn.backlog (conn : Conn) : List NetSend := conn.writing.toList ++ conn.queue

section Moves

variable {known : ChannelId × MessageId → Prop} {conn conn' : Conn} {events : List NetEvent}

/-- A connection keeps its peer, whatever it does. -/
theorem Conn.Move.peer_eq (h : Move known conn conn' events) : conn'.peer = conn.peer := by
  cases h <;> rfl

/-- A connection keeps the name it expects. -/
theorem Conn.Move.expected_eq (h : Move known conn conn' events) : conn'.expected = conn.expected := by
  cases h <;> rfl

/-- What is written is taken off the queue, in turn. -/
theorem Conn.Move.backlog (h : Move known conn conn' events) :
    conn'.backlog = conn.backlog
    ∨ ∃ msg, conn.writing = some msg ∧ conn.backlog = msg :: conn'.backlog := by
  cases h with
  | announced | heard | accepted | arrived | emitted | ended | reported => exact .inl rfl
  | took hphase hidle hqueue =>
    refine .inl ?_
    rw [Conn.backlog, Conn.backlog, hidle, hqueue]
    rfl
  | @wrote msg _ _ _ _ _ hwriting =>
    refine .inr ⟨msg, hwriting, ?_⟩
    rw [Conn.backlog, Conn.backlog, hwriting]
    rfl

omit [Message Sess] [Message Header] [Message ChunkIdent] in
/-- What holds of the event of every frame holds of all events of a broadcast stream. -/
theorem readBcast_forall {P : NetEvent → Prop} {peer : PeerId} {expected : Option String}
    (hframe : ∀ frame ev, spoofs expected frame = false → bcastEvent peer frame = some ev → P ev) {fuel : Nat}
    {bytes : Bytes} : ∀ ev ∈ (readBcast peer expected fuel bytes).1, P ev := by
  intro ev hev
  induction fuel generalizing bytes with
  | zero => cases hev
  | succ fuel ih =>
    rw [readBcast] at hev
    split at hev
    · cases hev
    · cases hev
    case h_3 frame rest hread =>
      split at hev
      case isTrue => cases hev
      case isFalse hspoof =>
        rcases List.mem_append.mp hev with hev | hev
        · exact hframe frame ev (by simpa using hspoof) (Option.mem_toList.mp hev)
        · exact ih hev

omit [Message Bcast] [Message Header] [Message ChunkIdent] in
/-- What holds of the event of every frame holds of all events of a session stream. -/
theorem readSess_forall {P : NetEvent → Prop} {peer : PeerId} {stops : Nat → Bool}
    (hframe : ∀ frame ev, sessEvent peer frame = some ev → P ev) {fuel count : Nat} {keyed : Bool}
    {bytes : Bytes} : ∀ ev ∈ (readSess peer stops fuel count keyed bytes).1, P ev := by
  intro ev hev
  induction fuel generalizing count keyed bytes with
  | zero => cases hev
  | succ fuel ih =>
    rw [readSess] at hev
    split at hev
    · cases hev
    · split at hev
      · cases hev
      · cases hev
      case h_3 frame rest hread =>
        rcases List.mem_append.mp hev with hev | hev
        · exact hframe frame ev (Option.mem_toList.mp hev)
        · exact ih hev

/-- The events of a stream are those of its frames, a spoofed handshake apart, or that of its chunk. -/
theorem readStream_forall {P : NetEvent → Prop} {peer : PeerId} {expected : Option String} {stops : Nat → Bool}
    (hbcast : ∀ frame ev, spoofs expected frame = false → bcastEvent peer frame = some ev → P ev)
    (hsess : ∀ frame ev, sessEvent peer frame = some ev → P ev)
    (hchunk : ∀ channel messageId chunkId payload, P (.chunk peer channel messageId chunkId payload))
    {bytes : Bytes} : ∀ ev ∈ (readStream peer expected stops bytes).1, P ev := by
  intro ev hev
  unfold readStream at hev
  split at hev
  · cases hev
  · exact readBcast_forall hbcast ev hev
  · exact readSess_forall hsess ev hev
  case h_4 bytes' _ =>
    unfold readChunkEvent chunkEvent at hev
    split at hev
    · cases hev
    case h_2 event rest hevent =>
      obtain rfl := List.mem_singleton.mp hev
      split at hevent
      · cases hevent
      · split at hevent
        · cases hevent
        · split at hevent
          · cases hevent
          · split at hevent
            · cases hevent
            · cases hevent
              exact hchunk _ _ _ _
  · cases hev

/-- The event is of something the peer sent on a stream. -/
def NetEvent.isData : NetEvent → Bool
  | .handshake .. | .subscribe .. | .unsubscribe .. | .sessionOpen .. | .routingUpdate .. | .chunk .. => true
  | .peerDisconnected .. | .peerConnected .. | .chunkSendResult .. | .peerReconstructed .. | .sessionClosed .. =>
    false

/-- The events of a stream are data of its peer. -/
theorem readStream_data {peer : PeerId} {expected : Option String} {stops : Nat → Bool} {bytes : Bytes} :
    ∀ ev ∈ (readStream peer expected stops bytes).1, ev.isData = true ∧ ev.sender = peer := by
  refine readStream_forall (fun frame ev _ hev => ?_) (fun frame ev hev => ?_) fun _ _ _ _ => ⟨rfl, rfl⟩
  · rcases frame with ⟨_ | message⟩
    · cases hev
    · cases message <;> cases hev <;> exact ⟨rfl, rfl⟩
  · rcases frame with ⟨_ | message⟩
    · cases hev
    · cases message <;> cases hev
      exact ⟨rfl, rfl⟩

/-- A pinned peer has no handshake with another identity. -/
theorem readStream_pinned {peer p : PeerId} {expected : String} {stops : Nat → Bool} {bytes : Bytes} {version : Nat}
    {channels : List ChannelId} {peerId : String}
    (h : .handshake p version channels peerId ∈ (readStream peer (some expected) stops bytes).1) :
    peerId = expected := by
  refine readStream_forall (P := fun ev => ev = .handshake p version channels peerId → peerId = expected)
    (fun frame ev hspoof hev => ?_) (fun frame ev hev => ?_) (fun _ _ _ _ heq => by cases heq) _ h rfl
  · rintro rfl
    rcases frame with ⟨_ | message⟩
    · cases hev
    · cases message <;> cases hev
      simpa [spoofs] using hspoof
  · rintro rfl
    rcases frame with ⟨_ | message⟩
    · cases hev
    · cases message <;> cases hev

/-- Only chunks are reported as sent. -/
theorem PeerStreams.writeOutbound_events (out : PeerStreams) {msg : NetSend}
    (hchunk : ∀ peer c m idx data token, msg ≠ .chunk peer c m idx data token) :
    (out.writeOutbound msg).2.2 = [] := by
  cases msg with
  | chunk peer c m idx data token => exact absurd rfl (hchunk _ _ _ _ _ _)
  | sessionOpen =>
    simp only [writeOutbound]
    split <;> rfl
  | routingUpdate =>
    simp only [writeOutbound]
    split <;> rfl
  | handshake | subscribe | unsubscribe | sessionReconstructed => rfl

/-- Whatever becomes of the write, a message that is no chunk is not reported. -/
theorem PeerStreams.writeOutboundOr_quiet (out : PeerStreams) {msg : NetSend}
    (hchunk : ∀ peer c m idx data token, msg ≠ .chunk peer c m idx data token) (fate : Fate) :
    (out.writeOutboundOr msg fate).2.2 = [] := by
  cases fate with
  | done =>
    refine Eq.trans ?_ (writeOutbound_events out hchunk)
    unfold writeOutboundOr
    dsimp only
    split <;> rfl
  | refused | cut =>
    cases msg with
    | chunk peer c m idx data token => exact absurd rfl (hchunk _ _ _ _ _ _)
    | handshake | subscribe | unsubscribe | sessionOpen | routingUpdate | sessionReconstructed => rfl

/-- The outcome of a chunk is reported to its peer. -/
theorem PeerStreams.writeOutboundOr_chunk (out : PeerStreams) (peer : PeerId) (c : ChannelId) (m : MessageId)
    (idx : Nat) (data : Bytes) (token : DispatchHandle) (fate : Fate) :
    ∃ ok, (out.writeOutboundOr (.chunk peer c m idx data token) fate).2.2
      = [.chunkSendResult peer c m token ok] := by
  cases fate with
  | done => exact ⟨_, rfl⟩
  | refused | cut => exact ⟨false, rfl⟩

/-- What a write reports is the outcome of the chunk it was for. -/
theorem PeerStreams.chunk_of_mem_writeOutboundOr {out : PeerStreams} {msg : NetSend} {fate : Fate}
    {ev : NetEvent} (hev : ev ∈ (out.writeOutboundOr msg fate).2.2) :
    ∃ peer c m idx data token ok, msg = .chunk peer c m idx data token
      ∧ ev = .chunkSendResult peer c m token ok := by
  cases msg with
  | chunk peer c m idx data token =>
    obtain ⟨ok, hevents⟩ := out.writeOutboundOr_chunk peer c m idx data token fate
    rw [hevents] at hev
    exact ⟨peer, c, m, idx, data, token, ok, rfl, List.mem_singleton.mp hev⟩
  | handshake | subscribe | unsubscribe | sessionOpen | routingUpdate | sessionReconstructed =>
    rw [writeOutboundOr_quiet _ (by simp)] at hev
    cases hev

/-- **What a connection reports**: that its peer is there or gone, what became of the chunk it wrote, a
session that the peer ended, or what one of its readers read. -/
theorem Conn.Move.event_cases (h : Move known conn conn' events) {ev : NetEvent} (hev : ev ∈ events) :
    ev = .peerConnected conn.peer ∨ ev = .peerDisconnected conn.peer
    ∨ (∃ peer c m idx data token ok, conn.writing = some (.chunk peer c m idx data token)
      ∧ ev = .chunkSendResult peer c m token ok)
    ∨ (∃ c m, ev = .peerReconstructed conn.peer c m ∨ ev = .sessionClosed conn.peer c m)
    ∨ ∃ reader : StreamReader, ev ∈ reader.events conn.peer conn.expected := by
  cases h with
  | announced => exact .inl (List.mem_singleton.mp hev)
  | reported => exact .inr (.inl (List.mem_singleton.mp hev))
  | took | accepted | arrived | ended => cases hev
  | @wrote msg fate _ _ _ _ hwriting hwrite =>
    obtain rfl : (conn.out.writeOutboundOr msg fate).2.2 = events := by rw [hwrite]
    obtain ⟨peer, c, m, idx, data, token, ok, rfl, rfl⟩ := PeerStreams.chunk_of_mem_writeOutboundOr hev
    exact .inr (.inr (.inl ⟨peer, c, m, idx, data, token, ok, hwriting, rfl⟩))
  | @heard _ _ c m _ _ hevents =>
    refine .inr (.inr (.inr (.inl ⟨c, m, ?_⟩)))
    rcases hevents with rfl | rfl | rfl
    · cases hev
    · exact .inl (List.mem_singleton.mp hev)
    · exact .inr (List.mem_singleton.mp hev)
  | @emitted _ reader _ _ _ hevent =>
    obtain rfl := List.mem_singleton.mp hev
    exact .inr (.inr (.inr (.inr ⟨reader, List.mem_of_getElem? hevent⟩)))

/-- The events of a connection are tagged with its peer, if its messages are. -/
theorem Conn.Move.sender (h : Move known conn conn' events)
    (hto : ∀ msg ∈ conn.backlog, msg.destPeer = some conn.peer) : ∀ ev ∈ events, ev.sender = conn.peer := by
  intro ev hev
  rcases h.event_cases hev with rfl | rfl | ⟨peer, c, m, idx, data, token, ok, hwriting, rfl⟩
    | ⟨c, m, rfl | rfl⟩ | ⟨reader, hmem⟩
  · rfl
  · rfl
  · -- the message was in the backlog, so it is for this peer
    have hdst := hto _ (by rw [Conn.backlog, hwriting]; exact List.mem_cons_self)
    exact Option.some.inj hdst
  · rfl
  · rfl
  · exact (readStream_data _ hmem).2

/-! ### What the functions of a connection do -/

namespace Conn

/-- The writer takes a message off the queue. -/
theorem recv_move (h : conn.recv = some (conn', events)) : Move known conn conn' events := by
  unfold recv at h
  split at h
  case h_1 msg queue hphase hidle hqueue =>
    cases h
    exact .took hphase hidle hqueue
  case h_2 => cases h

/-- The message is written, with some fate. -/
theorem write_move {fate : Fate} (h : conn.write fate = some (conn', events)) : Move known conn conn' events := by
  unfold write at h
  split at h
  · cases h
  case h_2 msg hwriting =>
    split at h
    case isTrue =>
      cases h
      exact .wrote hwriting rfl rfl
    case isFalse => cases h

/-- The stream's receiver stops it or takes it all. -/
theorem hear_move {w : Nat} {code : Option Nat} (h : conn.hear w code = some (conn', events)) :
    Move known conn conn' events := by
  unfold hear at h
  split at h
  · cases h
  case h_2 stream channel messageId hwatched =>
    cases h
    refine .heard hwatched ?_
    cases code with
    | none => exact .inl rfl
    | some code =>
      dsimp only
      split
      · exact .inr (.inl rfl)
      · exact .inr (.inr rfl)

/-- A stream of the peer is accepted. -/
theorem accept_move {stream : Nat} (h : conn.accept stream = some (conn', events)) :
    Move known conn conn' events := by
  unfold accept at h
  split at h
  case isTrue hready =>
    cases h
    simp only [Bool.and_eq_true, decide_eq_true_eq, List.all_eq_true] at hready
    exact .accepted hready.1.1.1 hready.1.1.2 hready.2
  case isFalse => cases h

/-- A stream's bytes come. -/
theorem arrive_move {r : Nat} {bytes : Bytes} (h : conn.arrive r bytes = some (conn', events)) :
    Move known conn conn' events := by
  unfold arrive at h
  split at h
  · cases h
  case h_2 reader hreader =>
    split at h
    · cases h
    · cases h
      exact .arrived hreader

/-- A stream is read to its end. -/
theorem read_move {r : Nat} (h : conn.read r = some (conn', events)) : Move known conn conn' events := by
  unfold read at h
  split at h
  · cases h
  case h_2 reader hreader =>
    split at h
    · cases h
    case isFalse hopen =>
      split at h
      · cases h
      case h_2 event hevent =>
        cases h
        exact .emitted hreader (by simpa using hopen) hevent

/-- A stream is rejected. -/
theorem reject_move {r : Nat} (h : conn.reject r = some (conn', events)) : Move known conn conn' events := by
  unfold reject at h
  split at h
  · cases h
  case h_2 reader hreader =>
    split at h
    · cases h
      exact .ended hreader (.inl rfl)
    · cases h

/-- A stream's reader finishes. -/
theorem finish_move {r : Nat} (h : conn.finish r = some (conn', events)) : Move known conn conn' events := by
  unfold finish at h
  split at h
  · cases h
  case h_2 reader hreader =>
    cases h
    exact .ended hreader (.inl rfl)

end Conn

end Moves

namespace QuicNet

/-- What a node does in a step, with the call of `send` it answers. -/
inductive Step (net : QuicNet) : QuicNet → Option Sent → Prop
  | connected {expected} : Step net (net.connect expected) none
  | registered {j conn} (hconn : net.conns[j]? = some conn) (hphase : conn.phase = .assigned) :
      Step net { net with
        peerSenders := net.peerSenders.insert conn.peer j
        conns := net.conns.set j { conn with phase := .registered } } none
  | moved {j conn conn' events} (hconn : net.conns[j]? = some conn)
      (hmove : Conn.Move (fun key => net.reset.isReconstructed key = true) conn conn' events) :
      Step net { net with conns := net.conns.set j conn', inbound := net.inbound ++ events } none
  | exited {j conn} (hconn : net.conns[j]? = some conn) (hqueue : conn.queue = []) (hidle : conn.writing = none)
      (hrouted : net.peerSenders[conn.peer]? ≠ some j) (hcalled : ∀ call ∈ net.sending, call.2.2 ≠ j)
      (hphase : conn.phase = .running) :
      Step net { net with conns := net.conns.set j { conn with pumping := false } } none
  | commanded {channel messageId} (hfree : net.sending = none) :
      Step net { net with reset := net.reset.record (channel, messageId) }
        (some ⟨.sessionReconstructed channel messageId, .ok ()⟩)
  | unrouted {msg dst} (hfree : net.sending = none) (hdst : msg.destPeer = some dst)
      (hnone : net.peerSenders[dst]? = none) : Step net net (some ⟨msg, .error (.peerNotFound dst)⟩)
  | called {msg dst j} (hfree : net.sending = none) (hdst : msg.destPeer = some dst)
      (hrouted : net.peerSenders[dst]? = some j) : Step net { net with sending := some (msg, dst, j) } none
  | stopped {msg dst j conn} (hsending : net.sending = some (msg, dst, j)) (hconn : net.conns[j]? = some conn)
      (hended : conn.pumping = false) :
      Step net { net with sending := none } (some ⟨msg, .error (.peerNotFound dst)⟩)
  | pushedBack {msg dst j conn} (hsending : net.sending = some (msg, dst, j)) (hconn : net.conns[j]? = some conn)
      (hfull : conn.queue.length ≥ perPeerOutboundQueue) :
      Step net { net with sending := none } (some ⟨msg, .error (.backpressure dst)⟩)
  | enqueued {msg dst j conn} (hsending : net.sending = some (msg, dst, j)) (hconn : net.conns[j]? = some conn)
      (hpumping : conn.pumping = true) (hroom : conn.queue.length < perPeerOutboundQueue) :
      Step net { net with
        sending := none
        conns := net.conns.set j { conn with queue := conn.queue ++ [msg] } } (some ⟨msg, .ok ()⟩)
  | lost {j conn} (hconn : net.conns[j]? = some conn) (hphase : conn.phase = .running)
      (haccepting : conn.accepting = true) :
      Step net { net with
        peerSenders := net.peerSenders.erase conn.peer
        conns := net.conns.set j { conn with accepting := false } } none

variable {net net' : QuicNet} {sent : Option Sent} {j : Nat} {conn : Conn}

omit [Message Bcast] [Message Sess] [Message Header] [Message ChunkIdent] in
/-- A connection's own step, taken apart. -/
theorem onConn_eq_some {f : Conn → Option (Conn × List NetEvent)} (h : net.onConn j f = some (net', sent)) :
    ∃ conn conn' events, net.conns[j]? = some conn ∧ f conn = some (conn', events) ∧ sent = none
      ∧ net' = { net with conns := net.conns.set j conn', inbound := net.inbound ++ events } := by
  unfold onConn at h
  cases hconn : net.conns[j]? with
  | none =>
    rw [hconn] at h
    cases h
  | some conn =>
    cases hf : f conn with
    | none =>
      simp only [hconn, hf] at h
      cases h
    | some moved =>
      obtain ⟨conn', events⟩ := moved
      simp only [hconn, hf, Option.some.injEq, Prod.mk.injEq] at h
      exact ⟨conn, conn', events, rfl, hf, h.2.symm, h.1.symm⟩

/-- A move of one connection is a step of the node. -/
theorem onConn_step {f : Conn → Option (Conn × List NetEvent)} (h : net.onConn j f = some (net', sent))
    (hf : ∀ conn conn' events, f conn = some (conn', events) →
      Conn.Move (fun key => net.reset.isReconstructed key = true) conn conn' events) :
    Step net net' sent := by
  obtain ⟨conn, conn', events, hconn, hmoved, rfl, rfl⟩ := onConn_eq_some h
  exact .moved hconn (hf conn conn' events hmoved)

/-- A registered connection is announced. -/
theorem announce_move {known : ChannelId × MessageId → Prop} {conn conn' : Conn} {events : List NetEvent}
    (h : announce conn = some (conn', events)) : Conn.Move known conn conn' events := by
  unfold announce at h
  split at h
  case isTrue hphase =>
    cases h
    exact .announced hphase
  case isFalse => cases h

/-- The end of a connection is reported, once. -/
theorem report_move {known : ChannelId × MessageId → Prop} {conn conn' : Conn} {events : List NetEvent}
    (h : report conn = some (conn', events)) : Conn.Move known conn conn' events := by
  unfold report at h
  split at h
  case isTrue hready =>
    cases h
    simp only [Bool.and_eq_true, Bool.not_eq_true'] at hready
    exact .reported hready.1 hready.2
  case isFalse => cases h

/-- A watcher stops only the readers of sessions that were reconstructed here. -/
theorem stop_move {r : Nat} {conn conn' : Conn} {events : List NetEvent}
    (h : net.stop r conn = some (conn', events)) :
    Conn.Move (fun key => net.reset.isReconstructed key = true) conn conn' events := by
  unfold stop at h
  split at h
  · cases h
  case h_2 reader hreader =>
    split at h
    case isTrue hready =>
      cases h
      obtain ⟨key, hkey, hknown⟩ := (Option.any_eq_true _ _).mp (Bool.and_eq_true _ _ ▸ hready).2
      exact .ended hreader (.inr ⟨key, hkey, hknown⟩)
    case isFalse => cases h

/-- A connection is registered with the node. -/
theorem register_step (h : net.register j = some (net', sent)) : Step net net' sent := by
  unfold register at h
  split at h
  · cases h
  case h_2 conn hconn =>
    split at h
    case isTrue hphase =>
      cases h
      exact .registered hconn hphase
    case isFalse => cases h

/-- A call of `send` is begun. -/
theorem send_step {msg : NetSend} (h : net.send msg = some (net', sent)) : Step net net' sent := by
  unfold send at h
  split at h
  · cases h
  case h_2 hfree =>
    cases h
    exact .commanded hfree
  case h_3 hfree hnot =>
    split at h
    case h_1 hdst =>
      obtain ⟨channel, messageId, hmsg⟩ := NetSend.command_of_destPeer hdst
      exact (hnot channel messageId hmsg).elim
    case h_2 dst hdst =>
      split at h
      case h_1 hnone =>
        cases h
        exact .unrouted hfree hdst hnone
      case h_2 j hrouted =>
        cases h
        exact .called hfree hdst hrouted

/-- The call of `send` ends, with what the peer's queue answers. -/
theorem enqueue_step (h : net.enqueue = some (net', sent)) : Step net net' sent := by
  unfold enqueue at h
  split at h
  · cases h
  case h_2 msg dst j hsending =>
    split at h
    · cases h
    case h_2 conn hconn =>
      split at h
      case isTrue hended =>
        cases h
        exact .stopped hsending hconn (by simpa using hended)
      case isFalse hpumping =>
        split at h
        case isTrue hfull =>
          cases h
          exact .pushedBack hsending hconn hfull
        case isFalse hroom =>
          cases h
          exact .enqueued hsending hconn (by simpa using hpumping) (Nat.lt_of_not_le hroom)

/-- A pump ends when its queue is empty and nothing can be put into it any more. -/
theorem exit_step (h : net.onConn j (net.exit j) = some (net', sent)) : Step net net' sent := by
  obtain ⟨conn, conn', events, hconn, hf, rfl, rfl⟩ := onConn_eq_some h
  unfold exit at hf
  split at hf
  case isTrue hready =>
    cases hf
    simp only [Bool.and_eq_true, decide_eq_true_eq, List.isEmpty_iff, Option.isNone_iff_eq_none,
      Option.all_eq_true] at hready
    obtain ⟨⟨⟨⟨hphase, hqueue⟩, hidle⟩, hrouted⟩, hcalled⟩ := hready
    have hstep : Step net { net with conns := net.conns.set j { conn with pumping := false } } none :=
      .exited hconn hqueue hidle hrouted hcalled hphase
    rwa [List.append_nil]
  case isFalse => cases hf

/-- A connection is lost. -/
theorem lose_step (h : net.lose j = some (net', sent)) : Step net net' sent := by
  unfold lose at h
  split at h
  · cases h
  case h_2 conn hconn =>
    split at h
    case isTrue hready =>
      cases h
      simp only [Bool.and_eq_true, decide_eq_true_eq] at hready
      exact .lost hconn hready.1 hready.2
    case isFalse => cases h

/-- **A step of a task** is one of these. -/
theorem task_step {t : Task} (h : net.task t = some (net', sent)) : Step net net' sent := by
  cases t with
  | connect expected =>
    cases h
    exact .connected
  | register j => exact register_step h
  | send msg => exact send_step h
  | enqueue => exact enqueue_step h
  | exit j => exact exit_step h
  | lose j => exact lose_step h
  | announce j => exact onConn_step h fun _ _ _ => announce_move
  | recv j => exact onConn_step h fun _ _ _ => Conn.recv_move
  | write j fate => exact onConn_step h fun _ _ _ => Conn.write_move
  | hear j w code => exact onConn_step h fun _ _ _ => Conn.hear_move
  | accept j stream => exact onConn_step h fun _ _ _ => Conn.accept_move
  | arrive j r bytes => exact onConn_step h fun _ _ _ => Conn.arrive_move
  | read j r => exact onConn_step h fun _ _ _ => Conn.read_move
  | reject j r => exact onConn_step h fun _ _ _ => Conn.reject_move
  | stop j r => exact onConn_step h fun _ _ _ => stop_move
  | finish j r => exact onConn_step h fun _ _ _ => Conn.finish_move
  | report j => exact onConn_step h fun _ _ _ => report_move

/-! ## What a node is wired up like -/

omit [Message Bcast] [Message Sess] [Message Header] [Message ChunkIdent] in
/-- The connections when one of them is replaced. -/
theorem conns_set {conns : List Conn} {conn' : Conn} (hconn : conns[j]? = some conn) (i : Nat) :
    (conns.set j conn')[i]? = if j = i then some conn' else conns[i]? := by
  rw [List.getElem?_set]
  split
  case isTrue => rw [if_pos (List.getElem?_eq_some_iff.mp hconn).1]
  case isFalse => rfl

/-- The id the counter gives to connection `j`. -/
def idOf (j : Nat) : PeerId := UInt64.ofNat (j + 1)

/-- The ids were given out in turn; a sender in the routing table, and one that a call has looked up, feeds a
queue of its peer; what waits for a peer is for it; and a pump has ended only if nothing more can come. -/
structure Wired (net : QuicNet) : Prop where
  peers : ∀ (j : Nat) (conn : Conn), net.conns[j]? = some conn → conn.peer = idOf j
  next : net.nextPeerId = idOf net.conns.length
  routes : ∀ (p : PeerId) (j : Nat), net.peerSenders[p]? = some j →
    ∃ conn : Conn, net.conns[j]? = some conn ∧ conn.peer = p ∧ conn.phase ≠ .assigned
  sending : ∀ (msg : NetSend) (dst : PeerId) (j : Nat), net.sending = some (msg, dst, j) →
    msg.destPeer = some dst ∧ ∃ conn : Conn, net.conns[j]? = some conn ∧ conn.peer = dst ∧ conn.phase ≠ .assigned
  backlog : ∀ (j : Nat) (conn : Conn), net.conns[j]? = some conn → ∀ msg ∈ conn.backlog, msg.destPeer = some conn.peer
  ended : ∀ (j : Nat) (conn : Conn), net.conns[j]? = some conn → conn.pumping = false →
    conn.backlog = [] ∧ net.peerSenders[conn.peer]? ≠ some j ∧ conn.phase = .running
      ∧ ∀ call ∈ net.sending, call.2.2 ≠ j

omit [Message Bcast] [Message Sess] [Message Header] [Message ChunkIdent] in
/-- A new node has no connections. -/
theorem new_wired : Wired {} where
  peers j conn h := by simp at h
  next := rfl
  routes p j h := by simp at h
  sending msg dst j h := by simp at h
  backlog j conn h := by simp at h
  ended j conn h := by simp at h

omit [Message Bcast] [Message Sess] [Message Header] [Message ChunkIdent] in
/-- A connection that keeps its peer, its place in the routing table and the state of its pump. -/
theorem Wired.replaced (h : net.Wired) (hconn : net.conns[j]? = some conn) {conn' : Conn}
    (hpeer : conn'.peer = conn.peer) (hphase : conn.phase ≠ .assigned → conn'.phase ≠ .assigned)
    (hbacklog : ∀ msg ∈ conn'.backlog, msg.destPeer = some conn.peer)
    (hended : conn'.pumping = false → conn'.backlog = [] ∧ net.peerSenders[conn.peer]? ≠ some j
      ∧ conn'.phase = .running ∧ ∀ call ∈ net.sending, call.2.2 ≠ j) :
    Wired { net with conns := net.conns.set j conn' } := by
  have hget : ∀ i, (net.conns.set j conn')[i]? = if j = i then some conn' else net.conns[i]? :=
    conns_set hconn
  -- a route to the connection stays one, since it keeps its peer and stays registered
  have hkept : ∀ {p : PeerId} {i : Nat},
      (∃ conn : Conn, net.conns[i]? = some conn ∧ conn.peer = p ∧ conn.phase ≠ .assigned) →
      ∃ conn : Conn, (net.conns.set j conn')[i]? = some conn ∧ conn.peer = p ∧ conn.phase ≠ .assigned := by
    rintro p i ⟨old, hold, rfl, hold'⟩
    by_cases hi : j = i
    · subst hi
      obtain rfl := Option.some.inj (hconn.symm.trans hold)
      exact ⟨conn', by rw [hget, if_pos rfl], hpeer, hphase hold'⟩
    · exact ⟨old, by rw [hget, if_neg hi, hold], rfl, hold'⟩
  refine ⟨fun i conn₁ hi => ?_, by rw [List.length_set]; exact h.next,
    fun p i hi => hkept (h.routes p i hi), fun msg dst i hi => ?_, fun i conn₁ hi msg hmsg => ?_,
    fun i conn₁ hi hpump => ?_⟩
  · rw [hget] at hi
    split at hi
    case isTrue hj =>
      obtain rfl := Option.some.inj hi
      rw [hpeer, h.peers j conn hconn, hj]
    case isFalse => exact h.peers i conn₁ hi
  · obtain ⟨hdst, hold⟩ := h.sending msg dst i hi
    exact ⟨hdst, hkept hold⟩
  · rw [hget] at hi
    split at hi
    case isTrue =>
      obtain rfl := Option.some.inj hi
      rw [hpeer]
      exact hbacklog msg hmsg
    case isFalse => exact h.backlog i conn₁ hi msg hmsg
  · rw [hget] at hi
    split at hi
    case isTrue hj =>
      obtain rfl := Option.some.inj hi
      subst hj
      rw [hpeer]
      exact hended hpump
    case isFalse => exact h.ended i conn₁ hi hpump

omit [Message Bcast] [Message Sess] [Message Header] [Message ChunkIdent] in
/-- A connection of the extended list is an old one or the new one. -/
theorem get_append_new {conns : List Conn} {new : Conn} {i : Nat} (h : (conns ++ [new])[i]? = some conn) :
    conns[i]? = some conn ∨ i = conns.length ∧ conn = new := by
  rcases Nat.lt_or_ge i conns.length with hlt | hge
  · rw [List.getElem?_append_left hlt] at h
    exact .inl h
  · rw [List.getElem?_append_right hge] at h
    obtain ⟨hsub, rfl⟩ := List.getElem?_eq_some_iff.mp h
    have hzero : i - conns.length = 0 := by
      simp only [List.length_singleton] at hsub
      omega
    refine .inr ⟨by omega, ?_⟩
    simp [hzero]

omit [Message Bcast] [Message Sess] [Message Header] [Message ChunkIdent] in
/-- A new connection gets the next id. -/
theorem Wired.connected (h : net.Wired) (expected : Option String) : (net.connect expected).Wired := by
  have hold : ∀ {p : PeerId} {i : Nat},
      (∃ conn : Conn, net.conns[i]? = some conn ∧ conn.peer = p ∧ conn.phase ≠ .assigned) →
      ∃ conn : Conn, (net.connect expected).conns[i]? = some conn ∧ conn.peer = p ∧ conn.phase ≠ .assigned := by
    rintro p i ⟨conn, hi, hconn⟩
    refine ⟨conn, ?_, hconn⟩
    rw [connect, List.getElem?_append_left (List.getElem?_eq_some_iff.mp hi).1, hi]
  refine ⟨fun i conn hi => ?_, ?_, fun p i hi => hold (h.routes p i hi), fun msg dst i hi => ?_,
    fun i conn hi => ?_, fun i conn hi hpump => ?_⟩
  · rcases get_append_new hi with hi | ⟨rfl, rfl⟩
    · exact h.peers i conn hi
    · exact h.next
  · show net.nextPeerId + 1 = idOf (net.conns ++ [_]).length
    rw [h.next, List.length_append]
    exact (UInt64.ofNat_add _ _).symm
  · obtain ⟨hdst, hfound⟩ := h.sending msg dst i hi
    exact ⟨hdst, hold hfound⟩
  · rcases get_append_new hi with hi | ⟨rfl, rfl⟩
    · exact h.backlog i conn hi
    · intro msg hmsg
      cases hmsg
  · rcases get_append_new hi with hi | ⟨rfl, rfl⟩
    · exact h.ended i conn hi hpump
    · cases hpump

omit [Message Bcast] [Message Sess] [Message Header] [Message ChunkIdent] in
/-- The sender of a connection that is registered feeds its queue, and its pump is still there. -/
theorem Wired.registered (h : net.Wired) (hconn : net.conns[j]? = some conn) (hphase : conn.phase = .assigned) :
    Wired { net with
      peerSenders := net.peerSenders.insert conn.peer j
      conns := net.conns.set j { conn with phase := .registered } } := by
  have hset : Wired { net with conns := net.conns.set j { conn with phase := .registered } } := by
    refine h.replaced hconn rfl (fun _ h => by cases h) (h.backlog j conn hconn) fun hpump => ?_
    have hrunning := (h.ended j conn hconn hpump).2.2.1
    rw [hphase] at hrunning
    cases hrunning
  have hget : ∀ p, (net.peerSenders.insert conn.peer j)[p]? = if conn.peer = p then some j
      else net.peerSenders[p]? := fun p => BTreeMap.get_insert _ _ _ _
  refine { hset with routes := fun p i hi => ?_, ended := fun i conn₁ hi hpump => ?_ }
  · rw [hget] at hi
    split at hi
    case isTrue hp =>
      obtain rfl := Option.some.inj hi
      exact ⟨_, (conns_set hconn j).trans (if_pos rfl), hp, fun h => by cases h⟩
    case isFalse => exact hset.routes p i hi
  · obtain ⟨hqueue, hrouted, hrest⟩ := hset.ended i conn₁ hi hpump
    refine ⟨hqueue, fun h => ?_, hrest⟩
    rw [hget] at h
    split at h
    case isTrue =>
      obtain rfl := Option.some.inj h
      obtain rfl := Option.some.inj (((conns_set hconn j).trans (if_pos rfl)).symm.trans hi)
      cases hrest.1
    case isFalse => exact hrouted h

omit [Message Bcast] [Message Sess] [Message Header] [Message ChunkIdent] in
/-- A call of `send` that found a sender holds it, so the pump behind it does not end. -/
theorem Wired.called (h : net.Wired) {msg : NetSend} {dst : PeerId} (hdst : msg.destPeer = some dst)
    (hrouted : net.peerSenders[dst]? = some j) : Wired { net with sending := some (msg, dst, j) } := by
  refine { h with sending := fun msg' dst' i hi => ?_, ended := fun i conn hi hpump => ?_ }
  · cases hi
    exact ⟨hdst, h.routes dst j hrouted⟩
  · obtain ⟨hqueue, hnot, hrunning, -⟩ := h.ended i conn hi hpump
    refine ⟨hqueue, hnot, hrunning, fun call hcall hj => hnot ?_⟩
    cases hcall
    have hj' : j = i := hj
    subst hj'
    obtain ⟨conn', hconn', hpeer, -⟩ := h.routes dst j hrouted
    obtain rfl := Option.some.inj (hi.symm.trans hconn')
    rw [hpeer]
    exact hrouted

omit [Message Bcast] [Message Sess] [Message Header] [Message ChunkIdent] in
/-- A call of `send` is over. -/
theorem Wired.answered (h : net.Wired) : Wired { net with sending := none } := by
  refine { h with sending := fun msg' dst' i hi => ?_, ended := fun i conn hi hpump => ?_ }
  · cases hi
  · obtain ⟨hqueue, hnot, hrunning, -⟩ := h.ended i conn hi hpump
    exact ⟨hqueue, hnot, hrunning, fun call hcall => by cases hcall⟩

omit [Message Bcast] [Message Sess] [Message Header] [Message ChunkIdent] in
/-- A message joins the queue of its peer, whose pump is running. -/
theorem Wired.enqueued (h : net.Wired) {msg : NetSend} {dst : PeerId} (hsending : net.sending = some (msg, dst, j))
    (hconn : net.conns[j]? = some conn) (hpumping : conn.pumping = true) :
    Wired { net with sending := none, conns := net.conns.set j { conn with queue := conn.queue ++ [msg] } } := by
  obtain ⟨hdst, conn', hconn', hpeer, -⟩ := h.sending msg dst j hsending
  obtain rfl := Option.some.inj (hconn.symm.trans hconn')
  have hset : Wired { net with conns := net.conns.set j { conn with queue := conn.queue ++ [msg] } } := by
    refine h.replaced hconn rfl id (fun msg' hmsg => ?_) fun hpump => ?_
    · have hback : msg' ∈ conn.backlog ++ [msg] := by
        rw [Conn.backlog, List.append_assoc]
        exact hmsg
      rcases List.mem_append.mp hback with hold | hnew
      · exact h.backlog j conn hconn msg' hold
      · rw [List.mem_singleton.mp hnew, hdst, hpeer]
    · have hpump' : conn.pumping = false := hpump
      rw [hpumping] at hpump'
      cases hpump'
  exact hset.answered

omit [Message Bcast] [Message Sess] [Message Header] [Message ChunkIdent] in
/-- The routing table loses a connection that is lost. -/
theorem Wired.lost (h : net.Wired) (hconn : net.conns[j]? = some conn) :
    Wired { net with
      peerSenders := net.peerSenders.erase conn.peer
      conns := net.conns.set j { conn with accepting := false } } := by
  have hset : Wired { net with conns := net.conns.set j { conn with accepting := false } } :=
    h.replaced hconn rfl id (h.backlog j conn hconn) (h.ended j conn hconn)
  have hget : ∀ p, (net.peerSenders.erase conn.peer)[p]? = if conn.peer = p then none
      else net.peerSenders[p]? := fun p => BTreeMap.get_erase _ _ _
  refine { hset with routes := fun p i hi => ?_, ended := fun i conn₁ hi hpump => ?_ }
  · rw [hget] at hi
    split at hi
    · cases hi
    · exact hset.routes p i hi
  · obtain ⟨hqueue, hnot, hrest⟩ := hset.ended i conn₁ hi hpump
    refine ⟨hqueue, fun h => ?_, hrest⟩
    rw [hget] at h
    split at h
    · cases h
    · exact hnot h

/-- What the tasks of one connection do leaves it its peer, its place and its pump. -/
theorem Wired.moved (h : net.Wired) (hconn : net.conns[j]? = some conn) {known : ChannelId × MessageId → Prop}
    {conn' : Conn} {events : List NetEvent} (hmove : Conn.Move known conn conn' events) :
    Wired { net with conns := net.conns.set j conn', inbound := net.inbound ++ events } := by
  have hback : ∀ msg ∈ conn'.backlog, msg ∈ conn.backlog := by
    rcases hmove.backlog with heq | ⟨msg, -, heq⟩
    · rw [heq]
      exact fun _ => id
    · rw [heq]
      exact fun _ => List.mem_cons_of_mem msg
  have hphase : conn.phase ≠ .assigned → conn'.phase ≠ .assigned := by
    cases hmove with
    | announced => exact fun _ h => by cases h
    | took | wrote | heard | accepted | arrived | emitted | ended | reported => exact id
  have hset : Wired { net with conns := net.conns.set j conn' } := by
    refine h.replaced hconn hmove.peer_eq hphase (fun msg hmsg => h.backlog j conn hconn msg (hback msg hmsg))
      fun hpump => ?_
    have hpump' : conn.pumping = false := by
      cases hmove <;> exact hpump
    obtain ⟨hqueue, hrouted, hrunning, hcall⟩ := h.ended j conn hconn hpump'
    refine ⟨List.eq_nil_iff_forall_not_mem.mpr fun msg hmsg => ?_, hrouted, ?_, hcall⟩
    · have hold := hback msg hmsg
      rw [hqueue] at hold
      cases hold
    · cases hmove with
      | announced => rfl
      | took | wrote | heard | accepted | arrived | emitted | ended | reported => exact hrunning
  exact { hset with }

/-- **Every step keeps the node wired up.** -/
theorem Step.wired (h : Step net net' sent) (hw : net.Wired) : net'.Wired := by
  cases h with
  | connected => exact hw.connected _
  | registered hconn hphase => exact hw.registered hconn hphase
  | moved hconn hmove => exact hw.moved hconn hmove
  | @exited j conn hconn hqueue hidle hrouted hcalled hphase =>
    have hempty : conn.backlog = [] := by rw [Conn.backlog, hidle, hqueue]; rfl
    exact hw.replaced hconn rfl id (hw.backlog j conn hconn) fun _ => ⟨hempty, hrouted, hphase, hcalled⟩
  | commanded | unrouted => exact { hw with }
  | called _ hdst hrouted => exact hw.called hdst hrouted
  | stopped | pushedBack => exact hw.answered
  | enqueued hsending hconn hpumping => exact hw.enqueued hsending hconn hpumping
  | lost hconn => exact hw.lost hconn

end QuicNet

end Ethp2p
