/-
# Ethp2p.Runtime.MemoryNet — the in-process transport (`runtime/memory_net.rs`).

A hub is a switchboard between endpoints: a send puts the event its destination sees straight into that
destination's inbound queue.  Two things happen on the side.  A `Chunk` is acknowledged to its own
sender, always as sent; and a `SessionOpen` is remembered, so that a later `SessionReconstructed` of the
receiver can be announced to those who had opened the session to it.
-/
import Ethp2p.Runtime

namespace Ethp2p

/-! ## Inbound queues -/

/-- An unbounded channel: everything sent into it, how much of it was taken out, and whether its receiver
was dropped. -/
structure Inbox where
  events : List NetEvent := []
  taken : Nat := 0
  closed : Bool := false
deriving DecidableEq, Repr

namespace Inbox

/-- Send into the channel; `false` if the receiver is gone. -/
def send (inbox : Inbox) (event : NetEvent) : Bool × Inbox :=
  if inbox.closed then (false, inbox) else (true, { inbox with events := inbox.events ++ [event] })

/-- Take the oldest event that was not taken yet. -/
def recv (inbox : Inbox) : Option (NetEvent × Inbox) :=
  inbox.events[inbox.taken]?.map fun event => (event, { inbox with taken := inbox.taken + 1 })

/-- The events not taken yet. -/
def unread (inbox : Inbox) : List NetEvent := inbox.events.drop inbox.taken

theorem send_of_open {inbox : Inbox} (h : inbox.closed = false) (event : NetEvent) :
    inbox.send event = (true, { inbox with events := inbox.events ++ [event] }) := by
  simp [send, h]

end Inbox

/-! ## The hub -/

/-- The switchboard: the endpoints' inbound queues and, for each receiver and session, the peers that
opened the session to it. -/
structure MemoryNetHub where
  senders : BTreeMap PeerId Inbox := ∅
  inboundOpeners : BTreeMap (PeerId × ChannelId × MessageId) (BTreeSet PeerId) := ∅

namespace MemoryNetHub

/-- Register an endpoint. -/
def endpoint (hub : MemoryNetHub) (peerId : PeerId) : MemoryNetHub :=
  { hub with senders := hub.senders.insert peerId {} }

/-- Mark a peer as disconnected. -/
def disconnect (hub : MemoryNetHub) (peerId : PeerId) : MemoryNetHub :=
  { hub with senders := hub.senders.erase peerId }

/-- The event the destination sees; the local command has none. -/
def eventOf (peerId : PeerId) : NetSend → Option NetEvent
  | .handshake _ version channels name => some (.handshake peerId version channels name)
  | .subscribe _ channel => some (.subscribe peerId channel)
  | .unsubscribe _ channel => some (.unsubscribe peerId channel)
  | .sessionOpen _ channel messageId preamble initialUpdate =>
    some (.sessionOpen peerId channel messageId preamble initialUpdate)
  | .routingUpdate _ channel messageId payload =>
    some (.routingUpdate peerId channel messageId payload)
  | .chunk _ channel messageId chunkId payload _ =>
    some (.chunk peerId channel messageId chunkId payload)
  | .sessionReconstructed .. => none

/-- Send into a peer's queue, if it has one, whatever becomes of it. -/
def notify (hub : MemoryNetHub) (peer : PeerId) (event : NetEvent) : MemoryNetHub :=
  match hub.senders[peer]? with
  | some inbox => { hub with senders := hub.senders.insert peer (inbox.send event).2 }
  | none => hub

/-- Remember who opened a session to whom. -/
def recordOpen (hub : MemoryNetHub) (peerId : PeerId) : NetSend → MemoryNetHub
  | .sessionOpen peer channel messageId .. =>
    { hub with
      inboundOpeners := hub.inboundOpeners.alter (peer, channel, messageId) fun openers =>
        some ((openers.getD ∅).insert peerId) }
  | _ => hub

/-- Report the outcome of a chunk to its sender, always as sent. -/
def acknowledge (hub : MemoryNetHub) (peerId : PeerId) : NetSend → MemoryNetHub
  | .chunk peer channel messageId _ _ token =>
    hub.notify peerId (.chunkSendResult peer channel messageId token true)
  | _ => hub

/-- Send a message from the endpoint of `peerId`. -/
def send (peerId : PeerId) (hub : MemoryNetHub) (msg : NetSend) :
    Except NetError Unit × MemoryNetHub :=
  match msg with
  | .sessionReconstructed channel messageId =>
    let key := (peerId, channel, messageId)
    let openers := hub.inboundOpeners.getD key ∅
    let hub := { hub with inboundOpeners := hub.inboundOpeners.erase key }
    (.ok (), openers.toList.foldl
      (fun hub opener => hub.notify opener (.peerReconstructed peerId channel messageId)) hub)
  | msg =>
    match msg.destPeer, eventOf peerId msg with
    | some dst, some event =>
      let hub := hub.recordOpen peerId msg
      match hub.senders[dst]? with
      | none => (.error (.peerNotFound dst), hub)
      | some inbox =>
        match inbox.send event with
        | (false, _) => (.error .closed, hub)
        | (true, inbox) =>
          (.ok (), { hub with senders := hub.senders.insert dst inbox }.acknowledge peerId msg)
    | _, _ => (.ok (), hub)

/-- What has been sent into a peer's queue. -/
def received (hub : MemoryNetHub) (peer : PeerId) : List NetEvent :=
  (hub.senders[peer]?.map (·.events)).getD []

end MemoryNetHub

end Ethp2p
