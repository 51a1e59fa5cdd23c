/-
# Ethp2p.Transport.Streams — messages on QUIC streams (`ethp2p-transport/src/lib.rs`).

A peer's outbound side is the bytes written to each unidirectional stream, in the order the streams were
opened, with the streams that later messages continue: the control stream, and a stream for each session.
`writeOutbound` writes one message; the pump forgets the continued streams when that fails.  Opening a
stream and writing bytes to it succeed, and a stream delivers its bytes in order.

`readStream` is what the receiving side makes of a stream's bytes.  A dialed peer may be pinned to an
identity (`expected`); and once a session's stream is known, a local reconstruction of its message may stop
the reading before any further frame (`stops`).
-/
import Ethp2p.Wire.Framing
import Ethp2p.Runtime.MemoryNet

namespace Ethp2p

variable [Message Bcast] [Message Sess] [Message Header] [Message ChunkIdent]

/-! ## Writing -/

/-- Per-peer outbound streams. -/
structure PeerStreams where
  streams : List Bytes := []
  ctrl : Option Nat := none
  sess : BTreeMap (ChannelId × MessageId) Nat := ∅

/-- The control message of a BCAST frame. -/
def bcastOf : NetSend → Option BcastMessage
  | .handshake _ version channels peerId => some (.peerHandshake version channels peerId)
  | .subscribe _ channel => some (.channelSubscribe channel)
  | .unsubscribe _ channel => some (.channelUnsubscribe channel)
  | _ => none

/-- The header of a chunk's stream. -/
def chunkHeader (channel : ChannelId) (messageId : MessageId) (chunkId : Nat) (payload : Bytes) : Header where
  channel := channel
  messageId := messageId
  chunkId := Message.encode (ChunkIdent.mk ((i32TryFrom chunkId).getD Int32.maxValue))
  dataLength := if payload.length < 2 ^ 32 then payload.length else 2 ^ 32 - 1

omit [Message Bcast] [Message Sess] [Message Header] in
/-- A chunk that is not too long is declared with its length. -/
theorem chunkHeader_dataLength (channel : ChannelId) (messageId : MessageId) (chunkId : Nat)
    {payload : Bytes} (hmax : payload.length ≤ maxChunkDataBytes) :
    payload.length = (chunkHeader channel messageId chunkId payload).dataLength := by
  have hlt : payload.length < 2 ^ 32 := Nat.lt_of_le_of_lt hmax (by decide)
  rw [chunkHeader, if_pos hlt]

namespace PeerStreams

omit [Message Bcast] [Message Sess] [Message Header] [Message ChunkIdent] in
/-- Open the long-lived BCAST stream on first use. -/
def ensureCtrl (out : PeerStreams) : Nat × PeerStreams :=
  match out.ctrl with
  | some i => (i, out)
  | none =>
    (out.streams.length,
      { out with
        streams := out.streams ++ [openStream [] .bcast]
        ctrl := some out.streams.length })

/-- Write a frame on a stream. -/
def writeOn {M : Type} [Message M] (out : PeerStreams) (i : Nat) (message : M) :
    Except IoErrorKind Unit × PeerStreams :=
  let (result, written) := writeFramed (out.streams[i]?.getD []) message
  (result, { out with streams := out.streams.set i written })

/-- Write one outbound message on the appropriate stream; what it reports back to its own engine last. -/
def writeOutbound (out : PeerStreams) (msg : NetSend) :
    Except IoErrorKind Unit × PeerStreams × List NetEvent :=
  match msg with
  | .sessionOpen _ channel messageId preamble initialUpdate =>
    match writeFramed (openStream [] .sess)
        (Sess.mk (some (.sessionOpen channel messageId preamble initialUpdate))) with
    | (.error err, written) => (.error err, { out with streams := out.streams ++ [written] }, [])
    | (.ok (), written) =>
      (.ok (), { out with
        streams := out.streams ++ [written]
        sess := out.sess.insert (channel, messageId) out.streams.length }, [])
  | .routingUpdate _ channel messageId payload =>
    match out.sess[(channel, messageId)]? with
    | some i =>
      let (result, out) := out.writeOn i (Sess.mk (some (.routingUpdate payload)))
      (result, out, [])
    | none => (.ok (), out, [])
  | .chunk peer channel messageId chunkId payload token =>
    let (result, written) := writeChunk [] (chunkHeader channel messageId chunkId payload) payload
    (.ok (), { out with streams := out.streams ++ [written] },
      [.chunkSendResult peer channel messageId token result.isOk])
  | msg =>
    match bcastOf msg with
    | some message =>
      let (i, out) := out.ensureCtrl
      let (result, out) := out.writeOn i (Bcast.mk (some message))
      (result, out, [])
    | none => (.ok (), out, [])

/-- Write a queued message; a failed write has the continued streams forgotten. -/
def pump (out : PeerStreams) (msg : NetSend) : PeerStreams :=
  match out.writeOutbound msg with
  | (.ok (), out, _) => out
  | (.error _, out, _) => { out with ctrl := none, sess := ∅ }

/-- Write queued messages in turn. -/
def pumpAll (out : PeerStreams) (msgs : List NetSend) : PeerStreams := msgs.foldl pump out

end PeerStreams

/-! ## Reading -/

/-- The event of a BCAST frame. -/
def bcastEvent (peer : PeerId) (frame : Bcast) : Option NetEvent :=
  match frame.message with
  | none => none
  | some (.peerHandshake version channels peerId) => some (.handshake peer version channels peerId)
  | some (.channelSubscribe channel) => some (.subscribe peer channel)
  | some (.channelUnsubscribe channel) => some (.unsubscribe peer channel)

/-- The event of a SESS frame. -/
def sessEvent (peer : PeerId) (frame : Sess) : Option NetEvent :=
  match frame.frame with
  | none => none
  | some (.sessionOpen channel messageId preamble initialUpdate) =>
    some (.sessionOpen peer channel messageId preamble initialUpdate)
  | some (.routingUpdate _) => none

/-- The frame is a handshake that asserts another identity than the pinned one. -/
def spoofs (expected : Option String) (frame : Bcast) : Bool :=
  match expected, frame.message with
  | some expected, some (.peerHandshake _ _ peerId) => peerId ≠ expected
  | _, _ => false

/-- Read the frames of a BCAST stream; `fuel` bounds their number. -/
def readBcast (peer : PeerId) (expected : Option String) :
    Nat → Bytes → List NetEvent × Except IoErrorKind Unit
  | 0, _ => ([], .ok ())
  | fuel + 1, bytes =>
    match readFramed Bcast bytes with
    | .error .unexpectedEof => ([], .ok ())
    | .error err => ([], .error err)
    | .ok (frame, bytes) =>
      -- a spoofed handshake closes the connection
      if spoofs expected frame then
        ([], .ok ())
      else
        let (events, result) := readBcast peer expected fuel bytes
        ((bcastEvent peer frame).toList ++ events, result)

/-- Read the frames of a SESS stream, after `count` of them; `keyed` once its session is known. -/
def readSess (peer : PeerId) (stops : Nat → Bool) :
    Nat → Nat → Bool → Bytes → List NetEvent × Except IoErrorKind Unit
  | 0, _, _, _ => ([], .ok ())
  | fuel + 1, count, keyed, bytes =>
    if keyed && stops count then
      ([], .ok ())
    else
      match readFramed Sess bytes with
      | .error .unexpectedEof => ([], .ok ())
      | .error err => ([], .error err)
      | .ok (frame, bytes) =>
        let event := sessEvent peer frame
        let (events, result) := readSess peer stops fuel (count + 1) (keyed || event.isSome) bytes
        (event.toList ++ events, result)

/-- Read a CHUNK stream up to the end of its payload. -/
def chunkEvent (peer : PeerId) (bytes : Bytes) : Except IoErrorKind (NetEvent × Bytes) :=
  match readChunkStream bytes with
  | .error err => .error err
  | .ok (header, bytes) =>
    match (Message.decode header.chunkId : Except String ChunkIdent) with
    | .error _ => .error .invalidData
    | .ok ident =>
      match u32TryFrom ident.index with
      | none => .error .invalidData
      | some chunkId =>
        match readPayload header bytes with
        | .error err => .error err
        | .ok (payload, bytes) =>
          .ok (.chunk peer header.channel header.messageId chunkId payload, bytes)

/-- Read a CHUNK stream. -/
def readChunkEvent (peer : PeerId) (bytes : Bytes) : List NetEvent × Except IoErrorKind Unit :=
  match chunkEvent peer bytes with
  | .error err => ([], .error err)
  | .ok (event, _) => ([event], .ok ())

/-- Read a single inbound stream: the events it emits, and how it ends. -/
def readStream (peer : PeerId) (expected : Option String) (stops : Nat → Bool) (bytes : Bytes) :
    List NetEvent × Except IoErrorKind Unit :=
  match readSelector bytes with
  | .error err => ([], .error err)
  | .ok (.bcast, bytes) => readBcast peer expected bytes.length bytes
  | .ok (.sess, bytes) => readSess peer stops bytes.length 0 false bytes
  | .ok (.chunk, bytes) => readChunkEvent peer bytes
  | .ok (.unspecified, _) => ([], .ok ())

end Ethp2p
