/-
# Ethp2p.Runtime — what the engine is plugged into: messages, transport, clock, delivery sink.

Embeds `runtime/mod.rs` and the bounded `mpsc` sink of the engine.

* A transport is any type with a `send` that answers and moves on (`Net`).  `Wire` is the transport
  about which NOTHING is assumed: it answers every send by an arbitrary function of everything
  submitted before, and logs what was submitted and what it answered.
* A clock is a stream of readings; every call of `now` takes the next one.
* The sink is a bounded queue: a full or closed one refuses.
-/
import Ethp2p.Session

namespace Ethp2p

/-- Outbound message. -/
inductive NetSend where
  | handshake (peer : PeerId) (version : Nat) (channels : List ChannelId) (peerId : String)
  | subscribe (peer : PeerId) (channel : ChannelId)
  | unsubscribe (peer : PeerId) (channel : ChannelId)
  | sessionOpen (peer : PeerId) (channel : ChannelId) (messageId : MessageId)
      (preamble initialUpdate : Bytes)
  | routingUpdate (peer : PeerId) (channel : ChannelId) (messageId : MessageId) (payload : Bytes)
  | chunk (peer : PeerId) (channel : ChannelId) (messageId : MessageId) (chunkId : Nat)
      (payload : Bytes) (token : DispatchHandle)
  | sessionReconstructed (channel : ChannelId) (messageId : MessageId)
deriving DecidableEq, Repr

/-- The destination of a message; a local command has none. -/
def NetSend.destPeer : NetSend → Option PeerId
  | .handshake peer .. | .subscribe peer .. | .unsubscribe peer .. | .sessionOpen peer ..
  | .routingUpdate peer .. | .chunk peer .. => some peer
  | .sessionReconstructed .. => none

/-- The message carries a chunk. -/
def NetSend.isChunk : NetSend → Bool
  | .chunk .. => true
  | _ => false

/-- Inbound event; `peer` is the sender. -/
inductive NetEvent where
  | handshake (peer : PeerId) (version : Nat) (channels : List ChannelId) (peerId : String)
  | subscribe (peer : PeerId) (channel : ChannelId)
  | unsubscribe (peer : PeerId) (channel : ChannelId)
  | sessionOpen (peer : PeerId) (channel : ChannelId) (messageId : MessageId)
      (preamble initialUpdate : Bytes)
  | routingUpdate (peer : PeerId) (channel : ChannelId) (messageId : MessageId) (payload : Bytes)
  | chunk (peer : PeerId) (channel : ChannelId) (messageId : MessageId) (chunkId : Nat)
      (payload : Bytes)
  | peerDisconnected (peer : PeerId)
  | peerConnected (peer : PeerId)
  | chunkSendResult (peer : PeerId) (channel : ChannelId) (messageId : MessageId)
      (token : DispatchHandle) (ok : Bool)
  | peerReconstructed (peer : PeerId) (channel : ChannelId) (messageId : MessageId)
  | sessionClosed (peer : PeerId) (channel : ChannelId) (messageId : MessageId)
deriving DecidableEq, Repr

/-- Errors of `send`. -/
inductive NetError where
  | peerNotFound (peer : PeerId)
  | closed
  | backpressure (peer : PeerId)
deriving DecidableEq, Repr

/-- A transport: `send` answers at once and moves the transport on. -/
class Net (N : Type) where
  send : N → NetSend → Except NetError Unit × N

/-! ## The arbitrary transport -/

/-- One submitted message with the transport's answer. -/
structure Sent where
  msg : NetSend
  answer : Except NetError Unit

/-- The message was accepted. -/
def Sent.accepted (s : Sent) : Bool := s.answer.isOk

/-- A transport that answers by an arbitrary function of the whole history, and keeps the history. -/
structure Wire where
  answer : List Sent → NetSend → Except NetError Unit
  log : List Sent

instance : Net Wire where
  send w msg := (w.answer w.log msg, { w with log := w.log ++ [⟨msg, w.answer w.log msg⟩] })

/-! ## Clock -/

/-- A point in time. -/
abbrev Instant := Nat

/-- A length of time. -/
abbrev Duration := Nat

/-- One second, in nanoseconds. -/
def second : Duration := 1000000000

/-- A clock: the stream of its readings and the number of readings taken. -/
structure Clock where
  reading : Nat → Instant
  calls : Nat

namespace Clock

/-- The reading the next call of `now` returns. -/
def time (c : Clock) : Instant := c.reading c.calls

/-- Take a reading. -/
def now (c : Clock) : Instant × Clock := (c.time, { c with calls := c.calls + 1 })

end Clock

/-! ## Delivery sink -/

/-- Reconstructed payload delivered to the application. -/
structure DeliveredMessage where
  channelId : ChannelId
  messageId : MessageId
  payload : Bytes
deriving DecidableEq, Repr

/-- Errors of `try_send`. -/
inductive TrySendError where
  | full
  | closed
deriving DecidableEq, Repr

/-- The bounded queue behind `mpsc::Sender`, and whether its receiver still exists. -/
structure Sink where
  capacity : Nat
  queue : List DeliveredMessage
  closed : Bool
deriving DecidableEq, Repr

namespace Sink

/-- Put a message at the end of the queue, unless the sink is closed or full. -/
def trySend (s : Sink) (d : DeliveredMessage) : Except TrySendError Unit × Sink :=
  if s.closed then
    (.error .closed, s)
  else if s.queue.length < s.capacity then
    (.ok (), { s with queue := s.queue ++ [d] })
  else
    (.error .full, s)

/-- The application takes the oldest message. -/
def recv (s : Sink) : Option DeliveredMessage × Sink :=
  (s.queue.head?, { s with queue := s.queue.tail })

/-- The sink takes another message. -/
def hasRoom (s : Sink) : Bool := !s.closed && s.queue.length < s.capacity

end Sink

end Ethp2p
