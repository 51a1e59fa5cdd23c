/-
# Ethp2p.Session — the per-session state machine and the per-topic channel container.

Embeds `session.rs` and `channel.rs`, both generic over the strategy.  A session's lifecycle is

    Origin                       (never moves)
    Consuming --complete--> Decoding --decode ok--> Reconstructed
                                     --decode err-> Failed

A channel holds the subscribers, the sessions and the factory that builds relay strategies.  The
factory is a Rust closure that may own a counter (`rs_relay_factory_seeded` does), so it is a
function of its counter that returns the next one.
-/
import Ethp2p.Strategy.Rs.State

namespace Ethp2p

/-- Channel identifier. -/
abbrev ChannelId := String

/-- Message identifier. -/
abbrev MessageId := String

instance : Std.TransOrd (ChannelId × MessageId) := inferInstance

instance : Std.TransOrd (ChannelId × MessageId × DispatchHandle) := inferInstance

/-- Lifecycle state of a session. -/
inductive SessionState where
  | origin
  | consuming
  | decoding
  | reconstructed
  | failed
deriving DecidableEq, Repr

/-- Outbound work returned by `Session.poll`. -/
structure SessionWork (ChunkId RoutingUpdate : Type) where
  routing : Option RoutingUpdate
  dispatches : List (ChunkDispatch ChunkId)

/-- Errors of the session operations. -/
inductive SessionError where
  | postConsuming (v : Verdict)
  | notDecoding (s : SessionState)
  | take (e : TakeError)
deriving DecidableEq, Repr

/-- Per-session state machine over a strategy. -/
structure Session (S : Type) where
  strategy : S
  state : SessionState

namespace Session

variable {S ChunkId RoutingUpdate DecodeError : Type}
  [Strategy S ChunkId RoutingUpdate DecodeError]

omit [Strategy S ChunkId RoutingUpdate DecodeError] in
/-- An origin session. -/
def newOrigin (strategy : S) : Session S := ⟨strategy, .origin⟩

omit [Strategy S ChunkId RoutingUpdate DecodeError] in
/-- A relay session. -/
def newRelay (strategy : S) : Session S := ⟨strategy, .consuming⟩

def attachPeer (s : Session S) (peer : PeerId) : Session S :=
  { s with strategy := Strategy.attachPeer s.strategy peer }

def detachPeer (s : Session S) (peer : PeerId) (completed : Bool) : Session S :=
  { s with strategy := Strategy.detachPeer s.strategy peer completed }

/-- Verify, store and progress on one inbound chunk; only `Consuming` takes chunks. -/
def takeChunk (s : Session S) (idx : ChunkId) (data : Bytes) :
    Except SessionError TakeOutcome × Session S :=
  match s.state with
  | .consuming =>
    match Strategy.takeChunk s.strategy idx data with
    | (.error e, strategy) => (.error (.take e), { s with strategy })
    | (.ok outcome, strategy) =>
      if outcome.complete && outcome.verdict = .accepted then
        (.ok outcome, { strategy, state := .decoding })
      else
        (.ok outcome, { s with strategy })
  | .decoding => (.error (.postConsuming .decoding), s)
  | .reconstructed => (.error (.postConsuming .surplus), s)
  | .origin | .failed => (.error (.postConsuming .invalid), s)

/-- Run `decode`; only valid in `Decoding`. -/
def decodeAndFinish (s : Session S) : Except SessionError Bytes × Session S :=
  if s.state ≠ .decoding then
    (.error (.notDecoding s.state), s)
  else
    match Strategy.decode s.strategy with
    | .ok payload => (.ok payload, { s with state := .reconstructed })
    | .error _ => (.error (.notDecoding .failed), { s with state := .failed })

/-- The strategy's pending outbound work. -/
def poll (s : Session S) : SessionWork ChunkId RoutingUpdate × Session S :=
  let (routing, strategy) := Strategy.pollRouting s.strategy false
  let (dispatches, strategy) := Strategy.pollChunks strategy
  (⟨routing, dispatches⟩, { s with strategy })

def chunkSent (s : Session S) (peer : PeerId) (handle : DispatchHandle) (ok : Bool) : Session S :=
  { s with strategy := Strategy.chunkSent s.strategy peer handle ok }

end Session

/-! ## Channels -/

/-- Errors of the channel operations. -/
inductive ChannelError where
  | invalidPreamble (msg : String)
  | sessionNotFound (m : MessageId)
  | session (e : SessionError)
  | duplicateSession (m : MessageId)
deriving DecidableEq, Repr

/-- A strategy factory: from its counter and the preamble bytes, the strategy or an error, and the
counter of the next call. -/
structure StrategyFactory (S : Type) where
  build : Nat → Bytes → Except ChannelError S × Nat
  counter : Nat

/-- Call the factory once. -/
def StrategyFactory.call {S : Type} (f : StrategyFactory S) (preambleBytes : Bytes) :
    Except ChannelError S × StrategyFactory S :=
  ((f.build f.counter preambleBytes).1,
    { f with counter := (f.build f.counter preambleBytes).2 })

/-- Per-channel container. -/
structure Channel (S : Type) where
  channelId : ChannelId
  subscribers : BTreeSet PeerId
  sessions : BTreeMap MessageId (Session S)
  factory : StrategyFactory S

namespace Channel

variable {S ChunkId RoutingUpdate DecodeError : Type}
  [Strategy S ChunkId RoutingUpdate DecodeError]

omit [Strategy S ChunkId RoutingUpdate DecodeError] in
/-- A channel with no subscriber and no session. -/
def new (channelId : ChannelId) (factory : StrategyFactory S) : Channel S :=
  ⟨channelId, ∅, ∅, factory⟩

/-- Add a subscriber and, if it is new, attach it to every session. -/
def subscribePeer (ch : Channel S) (peer : PeerId) : Channel S :=
  if peer ∈ ch.subscribers then
    ch
  else
    { ch with
      subscribers := ch.subscribers.insert peer
      sessions := ch.sessions.map fun _ s => s.attachPeer peer }

/-- Remove a subscriber and, if it was one, detach it from every session. -/
def unsubscribePeer (ch : Channel S) (peer : PeerId) : Channel S :=
  if peer ∈ ch.subscribers then
    { ch with
      subscribers := ch.subscribers.erase peer
      sessions := ch.sessions.map fun _ s => s.detachPeer peer false }
  else
    ch

/-- A session with all current subscribers attached. -/
def attachAll (ch : Channel S) (session : Session S) : Session S :=
  ch.subscribers.toList.foldl Session.attachPeer session

/-- Open a relay session from inbound preamble bytes. -/
def openSession (ch : Channel S) (messageId : MessageId) (preambleBytes : Bytes) :
    Except ChannelError Unit × Channel S :=
  if messageId ∈ ch.sessions then
    (.error (.duplicateSession messageId), ch)
  else
    match ch.factory.call preambleBytes with
    | (.error e, factory) => (.error e, { ch with factory })
    | (.ok strategy, factory) =>
      (.ok (), { ch with
        factory
        sessions := ch.sessions.insert messageId (ch.attachAll (Session.newRelay strategy)) })

/-- Register a pre-built origin session. -/
def startOriginSession (ch : Channel S) (messageId : MessageId) (strategy : S) :
    Except ChannelError Unit × Channel S :=
  if messageId ∈ ch.sessions then
    (.error (.duplicateSession messageId), ch)
  else
    (.ok (), { ch with
      sessions := ch.sessions.insert messageId (ch.attachAll (Session.newOrigin strategy)) })

/-- Forward an inbound chunk to its session. -/
def takeChunk (ch : Channel S) (messageId : MessageId) (chunkId : ChunkId) (data : Bytes) :
    Except ChannelError TakeOutcome × Channel S :=
  match ch.sessions[messageId]? with
  | none => (.error (.sessionNotFound messageId), ch)
  | some session =>
    match session.takeChunk chunkId data with
    | (.error e, session) =>
      (.error (.session e), { ch with sessions := ch.sessions.insert messageId session })
    | (.ok outcome, session) =>
      (.ok outcome, { ch with sessions := ch.sessions.insert messageId session })

omit [Strategy S ChunkId RoutingUpdate DecodeError] in
/-- Dispose a session. -/
def removeSession (ch : Channel S) (messageId : MessageId) : Channel S :=
  { ch with sessions := ch.sessions.erase messageId }

end Channel

/-! ## Relay factories -/

/-- The `{:?}` rendering of a preamble error. -/
def PreambleError.debug : PreambleError → String
  | .negativeShardCount d p => s!"NegativeShardCount \x7b num_data: {d}, num_parity: {p} \x7d"
  | .shardCountOverflow => "ShardCountOverflow"
  | .hashCountMismatch h e => s!"HashCountMismatch \x7b hashes: {h}, expected: {e} \x7d"
  | .hashLengthInvalid i l => s!"HashLengthInvalid \x7b idx: {i}, len: {l} \x7d"
  | .messageHashLengthInvalid l => s!"MessageHashLengthInvalid \x7b len: {l} \x7d"
  | .negativeLength l => s!"NegativeLength \x7b length: {l} \x7d"

/-- `rs_relay_factory`: decode the preamble and build a relay strategy on it.  The seed of the n-th
strategy is `seeds n`; the source reads it off the clock, so any stream is possible. -/
def rsRelayFactory [Crates] (config : RsConfig) (seeds : Nat → UInt64) :
    StrategyFactory RsStrategy where
  build n preambleBytes :=
    match Crates.preambleDecode preambleBytes with
    | .error e => (.error (.invalidPreamble e), n)
    | .ok preamble =>
      match RsStrategy.newRelayWithSeed preamble config (seeds n) with
      | .error e => (.error (.invalidPreamble e.debug), n + 1)
      | .ok s => (.ok s, n + 1)
  counter := 0

/-- `rs_relay_factory_seeded`: the n-th strategy gets seed `base_seed + n`. -/
def rsRelayFactorySeeded [Crates] (config : RsConfig) (baseSeed : UInt64) :
    StrategyFactory RsStrategy :=
  rsRelayFactory config fun n => baseSeed + UInt64.ofNat n

end Ethp2p
