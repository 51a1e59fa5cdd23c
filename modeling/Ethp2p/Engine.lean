/-
# Ethp2p.Engine — the top-level broadcast engine (`engine.rs`).

The engine hosts channels, processes inbound events, drives sessions and pushes reconstructed
payloads to the sink.  It is generic over the strategy and the transport, as in the source.

Every method is a state-passing function.  A method that can fail returns its `Except` result
together with the state it leaves behind: the `?` operator of the source returns EARLY, and what was
changed before stays changed.

`drain_session` loops until a poll finds no work.  `drainRound` is one turn of that loop and
`drainLoop` iterates it under a fuel of `pollBound + 2` turns.
-/
import Ethp2p.Runtime

namespace Ethp2p

/-- Session key `(channel, message_id)`. -/
abbrev SessionKey := ChannelId × MessageId

/-- Tunables for session lifecycle and cleanup, with the source's defaults. -/
structure EngineConfig where
  activeSessionTtl : Duration := 300 * second
  reconstructedLinger : Duration := 10 * second
  tombstoneTtl : Duration := 300 * second
  cleanupInterval : Duration := 30 * second
deriving DecidableEq, Repr

/-- Per-session lifecycle metadata. -/
structure SessionMeta where
  createdAt : Instant
  terminalAt : Option Instant
deriving DecidableEq, Repr

/-- Maximum chunks buffered for a session that is not open yet. -/
def maxParkedChunksPerMessage : Nat := 32

/-- How long a parked chunk is retained. -/
def parkedChunkTtl : Duration := 10 * second

/-- A chunk received before its session's `SessionOpen`. -/
structure ParkedChunk where
  chunkId : Nat
  payload : Bytes
  parkedAt : Instant
deriving DecidableEq, Repr

/-- Errors of the engine operations. -/
inductive EngineError where
  | net (e : NetError)
  | channel (e : ChannelError)
  | unknownChannel (c : ChannelId)
  | emptyPayload
deriving DecidableEq, Repr

/-- The protocol version this engine speaks. -/
def protocolVersion : Nat := 1

/-- Top-level engine. -/
structure Engine (S N : Type) where
  localPeer : PeerId
  localPeerStr : String
  channels : BTreeMap ChannelId (Channel S)
  connected : BTreeSet PeerId
  delivered : Sink
  net : N
  pendingSends : BTreeMap (ChannelId × MessageId × DispatchHandle) PeerId
  sessionPreambles : BTreeMap SessionKey Bytes
  openedTo : BTreeMap SessionKey (BTreeSet PeerId)
  config : EngineConfig
  clock : Clock
  sessionMeta : BTreeMap SessionKey SessionMeta
  tombstones : BTreeMap SessionKey Instant
  parkedChunks : BTreeMap SessionKey (List ParkedChunk)
  nextCleanup : Instant

namespace Engine

variable {S N E : Type}

/-- Construct an engine with an explicit cleanup config and clock. -/
def withConfig (localPeer : PeerId) (net : N) (delivered : Sink) (config : EngineConfig)
    (clock : Clock) : Engine S N where
  localPeer := localPeer
  localPeerStr := "peer-" ++ toString localPeer
  channels := ∅
  connected := ∅
  delivered := delivered
  net := net
  pendingSends := ∅
  sessionPreambles := ∅
  openedTo := ∅
  config := config
  clock := clock.now.2
  sessionMeta := ∅
  tombstones := ∅
  parkedChunks := ∅
  nextCleanup := clock.now.1 + config.cleanupInterval

/-- Number of live sessions across all channels. -/
def activeSessionCount (e : Engine S N) : Nat := e.sessionMeta.size

/-! ## State access -/

/-- The live session of a key. -/
def session? (e : Engine S N) (c : ChannelId) (m : MessageId) : Option (Session S) :=
  e.channels[c]?.bind (·.sessions[m]?)

/-- Replace the session of a key by `f` of it, if there is one. -/
def modifySession (e : Engine S N) (c : ChannelId) (m : MessageId)
    (f : Session S → Session S) : Engine S N :=
  { e with channels := e.channels.modify c fun ch =>
      { ch with sessions := ch.sessions.modify m f } }

/-- The subscribers of a channel, in peer order. -/
def subscribersOf (e : Engine S N) (c : ChannelId) : List PeerId :=
  match e.channels[c]? with
  | some ch => ch.subscribers.toList
  | none => []

/-- Read the clock. -/
def now (e : Engine S N) : Instant × Engine S N := (e.clock.now.1, { e with clock := e.clock.now.2 })

section Transport

variable [Net N]

/-- Submit a message to the transport. -/
def send (e : Engine S N) (msg : NetSend) : Except EngineError Unit × Engine S N :=
  match Net.send e.net msg with
  | (.ok (), net) => (.ok (), { e with net })
  | (.error err, net) => (.error (.net err), { e with net })

/-- Submit messages in order, stopping at the first refusal. -/
def sendEach : List NetSend → Engine S N → Except EngineError Unit × Engine S N
  | [], e => (.ok (), e)
  | msg :: msgs, e =>
    match e.send msg with
    | (.error err, e) => (.error err, e)
    | (.ok (), e) => sendEach msgs e

/-! ## Subscriptions and connections -/

/-- Host a channel and announce it to every connected peer. -/
def subscribe (e : Engine S N) (channelId : ChannelId) (factory : StrategyFactory S) :
    Except EngineError Unit × Engine S N :=
  let e :=
    if channelId ∈ e.channels then e
    else { e with channels := e.channels.insert channelId (Channel.new channelId factory) }
  sendEach (e.connected.toList.map fun peer => .subscribe peer channelId) e

/-- Mark a peer connected and send it our handshake; a no-op if it is already connected. -/
def registerPeerAndHandshake (e : Engine S N) (peer : PeerId) :
    Except EngineError Unit × Engine S N :=
  if peer ∈ e.connected then
    (.ok (), e)
  else
    { e with connected := e.connected.insert peer }.send
      (.handshake peer protocolVersion e.channels.keys e.localPeerStr)

/-- Register a peer connection and send the handshake. -/
def connect (e : Engine S N) (peer : PeerId) : Except EngineError Unit × Engine S N :=
  e.registerPeerAndHandshake peer

/-! ## Draining sessions -/

/-- Send a peer the `SessionOpen` of a session if it was not sent before and the preamble is
retained. -/
def ensureSessionOpen (e : Engine S N) (c : ChannelId) (m : MessageId) (peer : PeerId) :
    Except EngineError Unit × Engine S N :=
  if e.openedTo[(c, m)]?.any (peer ∈ ·) then
    (.ok (), e)
  else
    match e.sessionPreambles[(c, m)]? with
    | none => (.ok (), e)
    | some preamble =>
      match e.send (.sessionOpen peer c m preamble []) with
      | (.error err, e) => (.error err, e)
      | (.ok (), e) =>
        let openedTo := e.openedTo.alter (c, m) fun s => some ((s.getD ∅).insert peer)
        (.ok (), { e with openedTo })

/-- Open the session to each peer in turn, stopping at the first refusal. -/
def openEach (c : ChannelId) (m : MessageId) :
    List PeerId → Engine S N → Except EngineError Unit × Engine S N
  | [], e => (.ok (), e)
  | peer :: peers, e =>
    match e.ensureSessionOpen c m peer with
    | (.error err, e) => (.error err, e)
    | (.ok (), e) => openEach c m peers e

/-- Send a routing update to each peer in turn, opening its session first; stops at the first
refusal. -/
def routeEach (c : ChannelId) (m : MessageId) (payload : Bytes) :
    List PeerId → Engine S N → Except EngineError Unit × Engine S N
  | [], e => (.ok (), e)
  | peer :: peers, e =>
    match e.ensureSessionOpen c m peer with
    | (.error err, e) => (.error err, e)
    | (.ok (), e) =>
      match e.send (.routingUpdate peer c m payload) with
      | (.error err, e) => (.error err, e)
      | (.ok (), e) => routeEach c m payload peers e

/-- Send the routing update of a poll, if it returned one, to every subscriber. -/
def routeWork (c : ChannelId) (m : MessageId) (routing : Option BitMap) (e : Engine S N) :
    Except EngineError Unit × Engine S N :=
  match routing with
  | some routing => routeEach c m routing.asBytes (e.subscribersOf c) e
  | none => (.ok (), e)

variable [Strategy S Nat BitMap E]

/-- Send each dispatch, opening its peer's session first.  A refused open stops the loop; a refused
chunk is refunded and marks the round as stalled. -/
def dispatchEach (c : ChannelId) (m : MessageId) :
    List (ChunkDispatch Nat) → Bool → Engine S N → Except EngineError Bool × Engine S N
  | [], stalled, e => (.ok stalled, e)
  | d :: ds, stalled, e =>
    match e.ensureSessionOpen c m d.peer with
    | (.error err, e) => (.error err, e)
    | (.ok (), e) =>
      match e.send (.chunk d.peer c m d.chunkId d.payload d.handle) with
      | (.ok (), e) =>
        dispatchEach c m ds stalled
          { e with pendingSends := e.pendingSends.insert (c, m, d.handle) d.peer }
      | (.error _, e) =>
        dispatchEach c m ds true (e.modifySession c m (·.chunkSent d.peer d.handle false))

/-- One turn of the drain loop: `some r` when the loop returns `r`, `none` when it polls again. -/
def drainRound (e : Engine S N) (c : ChannelId) (m : MessageId) :
    Option (Except EngineError Unit) × Engine S N :=
  match e.session? c m with
  | none => (some (.ok ()), e)
  | some session =>
    let (work, session) := session.poll
    let e := e.modifySession c m fun _ => session
    if work.routing.isNone && work.dispatches.isEmpty then
      (some (.ok ()), e)
    else
      match routeWork c m work.routing e with
      | (.error err, e) => (some (.error err), e)
      | (.ok (), e) =>
        match dispatchEach c m work.dispatches false e with
        | (.error err, e) => (some (.error err), e)
        | (.ok true, e) => (some (.ok ()), e)
        | (.ok false, e) => (none, e)

/-- The drain loop, at most `fuel` turns; `none` when the fuel ran out first. -/
def drainLoop (c : ChannelId) (m : MessageId) :
    Nat → Engine S N → Option (Except EngineError Unit) × Engine S N
  | 0, e => (none, e)
  | fuel + 1, e =>
    match e.drainRound c m with
    | (some r, e) => (some r, e)
    | (none, e) => drainLoop c m fuel e

/-- The number of turns the drain loop is given. -/
def drainFuel (e : Engine S N) (c : ChannelId) (m : MessageId) : Nat :=
  match e.session? c m with
  | some session => Strategy.pollBound session.strategy + 2
  | none => 1

/-- Poll a session and send its work until there is none left or a send fails. -/
def drainSession (e : Engine S N) (c : ChannelId) (m : MessageId) :
    Except EngineError Unit × Engine S N :=
  let (r, e) := drainLoop c m (e.drainFuel c m) e
  (r.getD (.ok ()), e)

/-- Drain sessions in turn, stopping at the first error. -/
def drainEach (c : ChannelId) : List MessageId → Engine S N → Except EngineError Unit × Engine S N
  | [], e => (.ok (), e)
  | m :: ms, e =>
    match e.drainSession c m with
    | (.error err, e) => (.error err, e)
    | (.ok (), e) => drainEach c ms e

/-- Drain every session of a channel, in message-id order. -/
def drainChannel (e : Engine S N) (c : ChannelId) : Except EngineError Unit × Engine S N :=
  match e.channels[c]? with
  | none => (.ok (), e)
  | some ch => drainEach c ch.sessions.keys e

/-! ## Lifecycle bookkeeping -/

omit [Net N] [Strategy S Nat BitMap E] in
/-- Record the creation time of a session, first time only. -/
def recordSessionCreated (e : Engine S N) (c : ChannelId) (m : MessageId) : Engine S N :=
  if (c, m) ∈ e.sessionMeta then
    e
  else
    let (now, e) := e.now
    { e with sessionMeta := e.sessionMeta.insert (c, m) ⟨now, none⟩ }

omit [Net N] [Strategy S Nat BitMap E] in
/-- Mark a session terminal, first time only. -/
def markSessionTerminal (e : Engine S N) (c : ChannelId) (m : MessageId) : Engine S N :=
  match e.sessionMeta[(c, m)]? with
  | none => e
  | some info =>
    match info.terminalAt with
    | some _ => e
    | none =>
      let (now, e) := e.now
      { e with sessionMeta := e.sessionMeta.insert (c, m) { info with terminalAt := some now } }

omit [Net N] [Strategy S Nat BitMap E] in
/-- The session was disposed and its tombstone still stands. -/
def isTombstoned (e : Engine S N) (c : ChannelId) (m : MessageId) : Bool := (c, m) ∈ e.tombstones

/-- Decode a complete session and, on success, deliver the payload and tell the upstream senders. -/
def maybeDecodeAndDeliver (e : Engine S N) (c : ChannelId) (m : MessageId) : Engine S N :=
  match e.session? c m with
  | none => e
  | some session =>
    let (decoded, session) := session.decodeAndFinish
    let e := e.modifySession c m fun _ => session
    let e := e.markSessionTerminal c m
    match decoded with
    | .ok payload =>
      let e := { e with delivered := (e.delivered.trySend ⟨c, m, payload⟩).2 }
      (e.send (.sessionReconstructed c m)).2
    | .error _ => e

/-! ## Publishing -/

/-- Publish as an origin: register the session, open it to every subscriber, drain it. -/
def publish (e : Engine S N) (c : ChannelId) (m : MessageId) (strategy : S)
    (preambleBytes : Bytes) : Except EngineError Unit × Engine S N :=
  match e.channels[c]? with
  | none => (.error (.unknownChannel c), e)
  | some ch =>
    match ch.startOriginSession m strategy with
    | (.error err, _) => (.error (.channel err), e)
    | (.ok (), ch) =>
      let subscribers := ch.subscribers.toList
      let e := { e with
        channels := e.channels.insert c ch
        sessionPreambles := e.sessionPreambles.insert (c, m) preambleBytes }
      let e := e.recordSessionCreated c m
      match openEach c m subscribers e with
      | (.error err, e) => (.error err, e)
      | (.ok (), e) => e.drainSession c m

/-! ## Inbound events -/

omit [Net N] [Strategy S Nat BitMap E] in
/-- Buffer a chunk whose session is not open yet, dropping the oldest when the buffer is full. -/
def parkChunk (e : Engine S N) (c : ChannelId) (m : MessageId) (chunkId : Nat) (payload : Bytes) :
    Engine S N :=
  let (parkedAt, e) := e.now
  let buf := e.parkedChunks.getD (c, m) []
  let buf := if buf.length ≥ maxParkedChunksPerMessage then buf.tail else buf
  { e with parkedChunks := e.parkedChunks.insert (c, m) (buf ++ [⟨chunkId, payload, parkedAt⟩]) }

/-- Hand one chunk to a channel's session; the outcome's `complete` flag, `false` on an error. -/
def takeChunk (e : Engine S N) (c : ChannelId) (m : MessageId) (chunkId : Nat) (payload : Bytes) :
    Bool × Engine S N :=
  match e.channels[c]? with
  | none => (false, e)
  | some ch =>
    match ch.takeChunk m chunkId payload with
    | (.ok outcome, ch) => (outcome.complete, { e with channels := e.channels.insert c ch })
    | (.error _, ch) => (false, { e with channels := e.channels.insert c ch })

/-- Hand parked chunks to their session; whether any outcome was complete. -/
def replayEach (c : ChannelId) (m : MessageId) :
    List ParkedChunk → Bool → Engine S N → Bool × Engine S N
  | [], anyComplete, e => (anyComplete, e)
  | chunk :: chunks, anyComplete, e =>
    let (complete, e) := e.takeChunk c m chunk.chunkId chunk.payload
    replayEach c m chunks (anyComplete || complete) e

/-- Replay the chunks parked before a session opened, then drain and deliver once. -/
def replayParkedChunks (e : Engine S N) (c : ChannelId) (m : MessageId) : Engine S N :=
  match e.parkedChunks[(c, m)]? with
  | none => e
  | some parked =>
    let e := { e with parkedChunks := e.parkedChunks.erase (c, m) }
    let (anyComplete, e) := replayEach c m parked false e
    let e := (e.drainSession c m).2
    if anyComplete then e.maybeDecodeAndDeliver c m else e

/-- Detach a peer from one session. -/
def detachSessionPeer (e : Engine S N) (c : ChannelId) (m : MessageId) (peer : PeerId)
    (completed : Bool) : Engine S N :=
  e.modifySession c m (·.detachPeer peer completed)

/-- Resolve a deferred chunk send and drain again; a result with no pending entry is ignored. -/
def resolveChunkSend (e : Engine S N) (peer : PeerId) (c : ChannelId) (m : MessageId)
    (token : DispatchHandle) (ok : Bool) : Engine S N :=
  if (c, m, token) ∈ e.pendingSends then
    let e := { e with pendingSends := e.pendingSends.erase (c, m, token) }
    let e := e.modifySession c m (·.chunkSent peer token ok)
    (e.drainSession c m).2
  else
    e

/-- Subscribe a peer to a hosted channel; nothing to do for another one. -/
def subscribePeer (e : Engine S N) (c : ChannelId) (peer : PeerId) : Engine S N :=
  { e with channels := e.channels.modify c (·.subscribePeer peer) }

/-- Unsubscribe a peer from a hosted channel. -/
def unsubscribePeer (e : Engine S N) (c : ChannelId) (peer : PeerId) : Engine S N :=
  { e with channels := e.channels.modify c (·.unsubscribePeer peer) }

/-- Enrol a peer in each of the channels it advertises, draining each one. -/
def enrolEach (peer : PeerId) : List ChannelId → Engine S N → Engine S N
  | [], e => e
  | c :: cs, e => enrolEach peer cs ((e.subscribePeer c peer).drainChannel c).2

/-- `NetEvent::SessionOpen`. -/
def handleSessionOpen (e : Engine S N) (c : ChannelId) (m : MessageId) (preamble : Bytes) :
    Engine S N :=
  if e.isTombstoned c m then
    e
  else
    match e.channels[c]? with
    | none => e
    | some ch =>
      match ch.openSession m preamble with
      | (.error _, ch) => { e with channels := e.channels.insert c ch }
      | (.ok (), ch) =>
        let e := { e with
          channels := e.channels.insert c ch
          sessionPreambles := e.sessionPreambles.insert (c, m) preamble }
        let e := e.recordSessionCreated c m
        let e := (e.drainSession c m).2
        e.replayParkedChunks c m

/-- `NetEvent::Chunk`. -/
def handleChunk (e : Engine S N) (c : ChannelId) (m : MessageId) (chunkId : Nat)
    (payload : Bytes) : Engine S N :=
  if e.isTombstoned c m then
    e
  else if (e.session? c m).isNone then
    e.parkChunk c m chunkId payload
  else
    let (outcomeComplete, e) := e.takeChunk c m chunkId payload
    let e := (e.drainSession c m).2
    if outcomeComplete then e.maybeDecodeAndDeliver c m else e

/-- `NetEvent::PeerDisconnected`. -/
def handlePeerDisconnected (e : Engine S N) (peer : PeerId) : Engine S N :=
  { e with
    connected := e.connected.erase peer
    pendingSends := e.pendingSends.filter fun _ p => p ≠ peer
    openedTo := e.openedTo.map fun _ s => s.erase peer
    channels := e.channels.map fun _ ch => ch.unsubscribePeer peer }

/-- Dispatch one inbound event. -/
def handleEvent (e : Engine S N) : NetEvent → Engine S N
  | .handshake peer version channels _ =>
    if version = protocolVersion then
      enrolEach peer channels { e with connected := e.connected.insert peer }
    else
      { e with connected := e.connected.erase peer }
  | .subscribe peer c => ((e.subscribePeer c peer).drainChannel c).2
  | .unsubscribe peer c => e.unsubscribePeer c peer
  | .sessionOpen _ c m preamble _ => e.handleSessionOpen c m preamble
  | .chunk _ c m chunkId payload => e.handleChunk c m chunkId payload
  | .routingUpdate .. => e
  | .peerDisconnected peer => e.handlePeerDisconnected peer
  | .peerConnected peer => (e.registerPeerAndHandshake peer).2
  | .chunkSendResult peer c m token ok => e.resolveChunkSend peer c m token ok
  | .peerReconstructed peer c m => e.detachSessionPeer c m peer true
  | .sessionClosed peer c m => e.detachSessionPeer c m peer false

/-! ## Cleanup -/

omit [Net N] [Strategy S Nat BitMap E] in
/-- Drop all state of a session and leave a tombstone. -/
def disposeSession (e : Engine S N) (c : ChannelId) (m : MessageId) (now : Instant) :
    Engine S N :=
  { e with
    channels := e.channels.modify c (·.removeSession m)
    sessionMeta := e.sessionMeta.erase (c, m)
    sessionPreambles := e.sessionPreambles.erase (c, m)
    openedTo := e.openedTo.erase (c, m)
    parkedChunks := e.parkedChunks.erase (c, m)
    pendingSends := e.pendingSends.filter fun k _ => !(k.1 = c && k.2.1 = m)
    tombstones := e.tombstones.insert (c, m) now }

omit [Net N] [Strategy S Nat BitMap E] in
/-- The session is past its TTL or its terminal linger. -/
def isExpired (e : Engine S N) (now : Instant) (info : SessionMeta) : Bool :=
  now - info.createdAt > e.config.activeSessionTtl
    || info.terminalAt.any (now - · > e.config.reconstructedLinger)

omit [Net N] [Strategy S Nat BitMap E] in
/-- The keys a sweep disposes, in key order. -/
def expiredKeys (e : Engine S N) (now : Instant) : List SessionKey :=
  (e.sessionMeta.filter fun _ info => e.isExpired now info).keys

omit [Net N] [Strategy S Nat BitMap E] in
/-- Dispose expired sessions, expire tombstones and drop old parked chunks. -/
def runCleanup (e : Engine S N) (now : Instant) : Engine S N :=
  let e := (e.expiredKeys now).foldl (fun e k => e.disposeSession k.1 k.2 now) e
  { e with
    tombstones := e.tombstones.filter fun _ at_ => now - at_ ≤ e.config.tombstoneTtl
    parkedChunks := (e.parkedChunks.map fun _ buf =>
      buf.filter fun ch => now - ch.parkedAt ≤ parkedChunkTtl).filter fun _ buf => !buf.isEmpty }

omit [Net N] [Strategy S Nat BitMap E] in
/-- Run a sweep if the interval has elapsed. -/
def maybeRunCleanup (e : Engine S N) : Engine S N :=
  let (now, e) := e.now
  if now < e.nextCleanup then
    e
  else
    { e with nextCleanup := now + e.config.cleanupInterval }.runCleanup now

/-- Process one inbound event, then sweep if it is time. -/
def runOneStep (e : Engine S N) (event : NetEvent) : Engine S N :=
  (e.handleEvent event).maybeRunCleanup

end Transport

end Engine

end Ethp2p
