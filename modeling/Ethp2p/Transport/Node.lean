/-
# Ethp2p.Transport.Node — the tasks of a node on QUIC connections (`ethp2p-transport/src/lib.rs`).

A node is a set of concurrent tasks: for each connection a pump that writes the peer's bounded outbound queue to
its streams, a reader that accepts its inbound streams, a task for each of them, and a watcher for each
session stream that was opened; beside them the calls of the engine.  They share the inbound queue, the routing
table, the id counter and the reset state.  A step is what one task does between two points where another one can
come in (`QuicNet.task`); in which order they come is the scheduler's choice.

What QUIC does with a connection is part of the task's choice as well: whether a stream opens and how much of a
write gets out (`Fate`), which streams arrive and how much of them, when the connection is lost and with what
code a stream is stopped.
-/
import Ethp2p.Transport.Streams
import Ethp2p.Transport.Reset
import Ethp2p.Sim.Net

namespace Ethp2p

/-! ## Writes that may fail -/

/-- What becomes of a write: it goes through; no stream can be opened for it; the stream is lost after some of
the message's bytes. -/
inductive Fate where
  | done
  | refused
  | cut (n : Nat)
deriving DecidableEq, Repr

/-- What is on the streams when a write that would have led from `streams` to `written` fails. -/
def Fate.left (fate : Fate) (streams written : List Bytes) : List Bytes :=
  match fate with
  | .done => written
  | .refused => streams
  | .cut n => written.mapIdx fun i bytes => bytes.take ((streams[i]?.getD []).length + n)

namespace PeerStreams

variable [Message Bcast] [Message Sess] [Message Header] [Message ChunkIdent]

/-- There is something to write for the message. -/
def writes (out : PeerStreams) : NetSend → Bool
  | .routingUpdate _ channel messageId _ => out.sess[(channel, messageId)]?.isSome
  | .sessionReconstructed .. => false
  | _ => true

/-- Write one outbound message on streams that may fail; `true` if that went well.  A failed write has the
continued streams forgotten, but the failure of a chunk is only reported. -/
def writeOutboundOr (out : PeerStreams) (msg : NetSend) (fate : Fate) :
    Bool × PeerStreams × List NetEvent :=
  let (result, written, events) := out.writeOutbound msg
  let failed := { out with streams := fate.left out.streams written.streams }
  match fate, msg with
  | .done, _ =>
    match result with
    | .ok () => (true, written, events)
    | .error _ => (false, { written with ctrl := none, sess := ∅ }, events)
  | _, .chunk peer channel messageId _ _ token =>
    (true, failed, [.chunkSendResult peer channel messageId token false])
  | _, _ => (false, { failed with ctrl := none, sess := ∅ }, [])

end PeerStreams

/-! ## Connections -/

/-- How far the registration of a connection has come: it has an id, its queue is in the routing table, it was
announced and its tasks were spawned. -/
inductive Phase where
  | assigned
  | registered
  | running
deriving DecidableEq, Repr

/-- The task that reads one inbound stream: the bytes that have arrived, the number of events it has emitted,
whether it has told the sender to stop, and whether it has ended. -/
structure StreamReader where
  stream : Nat
  received : Bytes := []
  emitted : Nat := 0
  stopped : Bool := false
  ended : Bool := false

/-- A connection, and the tasks spawned for it; a watcher has the stream it watches and its session. -/
structure Conn where
  peer : PeerId
  expected : Option String
  phase : Phase := .assigned
  queue : List NetSend := []
  pumping : Bool := true
  writing : Option NetSend := none
  out : PeerStreams := {}
  watched : List (Nat × ChannelId × MessageId) := []
  accepting : Bool := true
  reported : Bool := false
  closed : Bool := false
  readers : List StreamReader := []

/-- The code a receiver resets an inbound SESS stream with, once it has reconstructed the message. -/
def errReconstructed : Nat := 1

/-- The session an open is for. -/
def NetSend.opened : NetSend → Option (ChannelId × MessageId)
  | .sessionOpen _ channel messageId .. => some (channel, messageId)
  | _ => none

/-- The session an inbound stream is known to be of after this event. -/
def NetEvent.opened : NetEvent → Option (ChannelId × MessageId)
  | .sessionOpen _ channel messageId .. => some (channel, messageId)
  | _ => none

section Streams

variable [Message Bcast] [Message Sess] [Message Header] [Message ChunkIdent]

/-- A handshake among the frames asserts another identity than the pinned one. -/
def spoofed (expected : Option String) : Nat → Bytes → Bool
  | 0, _ => false
  | fuel + 1, bytes =>
    match readFramed Bcast bytes with
    | .error _ => false
    | .ok (frame, bytes) => spoofs expected frame || spoofed expected fuel bytes

namespace StreamReader

/-- The events of what has arrived. -/
def events (reader : StreamReader) (peer : PeerId) (expected : Option String) : List NetEvent :=
  (readStream peer expected (fun _ => false) reader.received).1

/-- The reader has come to a spoofed handshake. -/
def rejects (reader : StreamReader) (peer : PeerId) (expected : Option String) : Bool :=
  reader.emitted = (reader.events peer expected).length &&
    match readSelector reader.received with
    | .ok (.bcast, bytes) => spoofed expected bytes.length bytes
    | _ => false

/-- The session the reader watches for a local reconstruction. -/
def key (reader : StreamReader) (peer : PeerId) (expected : Option String) : Option (ChannelId × MessageId) :=
  (((reader.events peer expected).take reader.emitted).filterMap NetEvent.opened).getLast?

end StreamReader

namespace Conn

/-- The pump takes the next message off the queue. -/
def recv (conn : Conn) : Option (Conn × List NetEvent) :=
  match conn.phase, conn.writing, conn.queue with
  | .running, none, msg :: queue => some ({ conn with queue, writing := some msg }, [])
  | _, _, _ => none

/-- The pump is done with a message. -/
def write (conn : Conn) (fate : Fate) : Option (Conn × List NetEvent) :=
  match conn.writing with
  | none => none
  | some msg =>
    if fate = .done || conn.out.writes msg then
      let (ok, out, events) := conn.out.writeOutboundOr msg fate
      let watched := if ok then conn.watched ++ (msg.opened.map (conn.out.streams.length, ·)).toList else conn.watched
      some ({ conn with writing := none, out, watched }, events)
    else
      none

/-- A watcher hears how its stream ended: the receiver stopped it with a code, or nothing to report. -/
def hear (conn : Conn) (w : Nat) (code : Option Nat) : Option (Conn × List NetEvent) :=
  match conn.watched[w]? with
  | none => none
  | some (_, channel, messageId) =>
    let events : List NetEvent := match code with
      | none => []
      | some code =>
        if code = errReconstructed then [.peerReconstructed conn.peer channel messageId]
        else [.sessionClosed conn.peer channel messageId]
    some ({ conn with watched := conn.watched.eraseIdx w }, events)

/-- The reader accepts an inbound stream. -/
def accept (conn : Conn) (stream : Nat) : Option (Conn × List NetEvent) :=
  if conn.phase = .running && conn.accepting && !conn.closed
      && conn.readers.all (·.stream ≠ stream) then
    some ({ conn with readers := conn.readers ++ [{ stream }] }, [])
  else
    none

/-- More of an inbound stream arrives. -/
def arrive (conn : Conn) (r : Nat) (bytes : Bytes) : Option (Conn × List NetEvent) :=
  match conn.readers[r]? with
  | none => none
  | some reader =>
    if conn.closed || reader.ended then none
    else some ({ conn with
      readers := conn.readers.set r { reader with received := reader.received ++ bytes } }, [])

/-- The task of an inbound stream emits its next event. -/
def read (conn : Conn) (r : Nat) : Option (Conn × List NetEvent) :=
  match conn.readers[r]? with
  | none => none
  | some reader =>
    if reader.ended then none
    else match (reader.events conn.peer conn.expected)[reader.emitted]? with
      | none => none
      | some event =>
        some ({ conn with
          readers := conn.readers.set r { reader with emitted := reader.emitted + 1 } }, [event])

/-- The task of an inbound stream comes to a spoofed handshake, and closes the connection. -/
def reject (conn : Conn) (r : Nat) : Option (Conn × List NetEvent) :=
  match conn.readers[r]? with
  | none => none
  | some reader =>
    if !reader.ended && reader.rejects conn.peer conn.expected then
      some ({ conn with closed := true, readers := conn.readers.set r { reader with ended := true } }, [])
    else
      none

/-- The task of an inbound stream ends: the stream has ended, or it cannot be read. -/
def finish (conn : Conn) (r : Nat) : Option (Conn × List NetEvent) :=
  match conn.readers[r]? with
  | none => none
  | some reader => some ({ conn with readers := conn.readers.set r { reader with ended := true } }, [])

end Conn

end Streams

/-! ## Nodes -/

/-- A node: what was put into its inbound queue, its routing table (the index of the connection whose queue a
sender feeds), the id counter, the reset state, its connections, and the call of `send` that has looked its sender
up. -/
structure QuicNet where
  inbound : List NetEvent := []
  peerSenders : BTreeMap PeerId Nat := ∅
  nextPeerId : PeerId := 1
  reset : ResetState := {}
  conns : List Conn := []
  sending : Option (NetSend × PeerId × Nat) := none

/-- What can happen next at a node. -/
inductive Task where
  /-- A connection is dialed or accepted. -/
  | connect (expected : Option String)
  | register (j : Nat)
  | announce (j : Nat)
  /-- The engine calls `send`. -/
  | send (msg : NetSend)
  | enqueue
  | recv (j : Nat)
  | write (j : Nat) (fate : Fate)
  | hear (j w : Nat) (code : Option Nat)
  /-- The pump finds its queue closed. -/
  | exit (j : Nat)
  | accept (j stream : Nat)
  | arrive (j r : Nat) (bytes : Bytes)
  | read (j r : Nat)
  | reject (j r : Nat)
  | stop (j r : Nat)
  | finish (j r : Nat)
  /-- The reader finds the connection lost. -/
  | lose (j : Nat)
  | report (j : Nat)

namespace QuicNet

/-- Depth of each peer's bounded outbound queue. -/
def perPeerOutboundQueue : Nat := 256

/-- A connection's task takes a step of its own. -/
def onConn (net : QuicNet) (j : Nat) (f : Conn → Option (Conn × List NetEvent)) : Option (QuicNet × Option Sent) :=
  match net.conns[j]? with
  | none => none
  | some conn =>
    match f conn with
    | none => none
    | some (conn, events) =>
      some ({ net with conns := net.conns.set j conn, inbound := net.inbound ++ events }, none)

/-- `fetch_add` on the id counter. -/
def connect (net : QuicNet) (expected : Option String) : QuicNet :=
  { net with
    nextPeerId := net.nextPeerId + 1
    conns := net.conns ++ [{ peer := net.nextPeerId, expected }] }

/-- `register_peer`, up to the insertion of the sender. -/
def register (net : QuicNet) (j : Nat) : Option (QuicNet × Option Sent) :=
  match net.conns[j]? with
  | none => none
  | some conn =>
    if conn.phase = .assigned then
      some ({ net with
        peerSenders := net.peerSenders.insert conn.peer j
        conns := net.conns.set j { conn with phase := .registered } }, none)
    else
      none

/-- `register_peer`, from the announcement on. -/
def announce (conn : Conn) : Option (Conn × List NetEvent) :=
  if conn.phase = .registered then some ({ conn with phase := .running }, [.peerConnected conn.peer]) else none

/-- `Net::send`, up to the lookup of the sender. -/
def send (net : QuicNet) (msg : NetSend) : Option (QuicNet × Option Sent) :=
  match net.sending, msg with
  | some _, _ => none
  | none, .sessionReconstructed channel messageId =>
    some ({ net with reset := net.reset.record (channel, messageId) }, some ⟨msg, .ok ()⟩)
  | none, msg =>
    match msg.destPeer with
    | none => some (net, some ⟨msg, .ok ()⟩)
    | some dst =>
      match net.peerSenders[dst]? with
      | none => some (net, some ⟨msg, .error (.peerNotFound dst)⟩)
      | some j => some ({ net with sending := some (msg, dst, j) }, none)

/-- `Net::send`, from `try_send` on. -/
def enqueue (net : QuicNet) : Option (QuicNet × Option Sent) :=
  match net.sending with
  | none => none
  | some (msg, dst, j) =>
    match net.conns[j]? with
    | none => none
    | some conn =>
      if !conn.pumping then
        some ({ net with sending := none }, some ⟨msg, .error (.peerNotFound dst)⟩)
      else if conn.queue.length ≥ perPeerOutboundQueue then
        some ({ net with sending := none }, some ⟨msg, .error (.backpressure dst)⟩)
      else
        some ({ net with
          sending := none
          conns := net.conns.set j { conn with queue := conn.queue ++ [msg] } }, some ⟨msg, .ok ()⟩)

/-- The pump ends when its queue is empty and no sender is left. -/
def exit (net : QuicNet) (j : Nat) (conn : Conn) : Option (Conn × List NetEvent) :=
  if conn.phase = .running && conn.queue.isEmpty && conn.writing.isNone
      && net.peerSenders[conn.peer]? ≠ some j && (net.sending.all fun call => call.2.2 ≠ j) then
    some ({ conn with pumping := false }, [])
  else
    none

/-- The connection is lost: its reader deregisters the peer. -/
def lose (net : QuicNet) (j : Nat) : Option (QuicNet × Option Sent) :=
  match net.conns[j]? with
  | none => none
  | some conn =>
    if conn.phase = .running && conn.accepting then
      some ({ net with
        peerSenders := net.peerSenders.erase conn.peer
        conns := net.conns.set j { conn with accepting := false } }, none)
    else
      none

/-- The reader of a lost connection reports that, and ends. -/
def report (conn : Conn) : Option (Conn × List NetEvent) :=
  if !conn.accepting && !conn.reported then
    some ({ conn with reported := true }, [.peerDisconnected conn.peer])
  else
    none

section Streams

variable [Message Bcast] [Message Sess] [Message Header] [Message ChunkIdent]

/-- The reader of a session's stream stops it, since the session was reconstructed. -/
def stop (net : QuicNet) (r : Nat) (conn : Conn) : Option (Conn × List NetEvent) :=
  match conn.readers[r]? with
  | none => none
  | some reader =>
    if !reader.ended && (reader.key conn.peer conn.expected).any net.reset.isReconstructed then
      some ({ conn with
        readers := conn.readers.set r { reader with stopped := true, ended := true } }, [])
    else
      none

/-- One step of one task, with the call of `send` it answers; `none` if the task is not ready for it. -/
def task (net : QuicNet) : Task → Option (QuicNet × Option Sent)
  | .connect expected => some (net.connect expected, none)
  | .register j => net.register j
  | .announce j => net.onConn j announce
  | .send msg => net.send msg
  | .enqueue => net.enqueue
  | .recv j => net.onConn j Conn.recv
  | .write j fate => net.onConn j (·.write fate)
  | .hear j w code => net.onConn j (·.hear w code)
  | .exit j => net.onConn j (net.exit j)
  | .accept j stream => net.onConn j (·.accept stream)
  | .arrive j r bytes => net.onConn j (·.arrive r bytes)
  | .read j r => net.onConn j (·.read r)
  | .reject j r => net.onConn j (·.reject r)
  | .stop j r => net.onConn j (net.stop r)
  | .finish j r => net.onConn j (·.finish r)
  | .lose j => net.lose j
  | .report j => net.onConn j report

/-- Tasks take steps in turn; the calls of `send` that are answered meanwhile. -/
def tasks (net : QuicNet) : List Task → Option (QuicNet × List Sent)
  | [] => some (net, [])
  | t :: ts =>
    match net.task t with
    | none => none
    | some (net, sent) =>
      match net.tasks ts with
      | none => none
      | some (net, log) => some (net, sent.toList ++ log)

end Streams

end QuicNet

end Ethp2p
