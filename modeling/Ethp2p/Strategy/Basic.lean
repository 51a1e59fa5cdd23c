/-
# Ethp2p.Strategy.Basic — the engine-facing strategy interface.

Covers `strategy/mod.rs` (peer ids, verdicts, the `Strategy` trait), `strategy/dispatch.rs`
(dispatch records) and `strategy/config.rs` (the Reed-Solomon parameters).

A Rust method `&mut self -> R` is a function that returns the result and the new state.  Peer ids
and dispatch handles are `u64` and stay `UInt64` here: a handle counter really wraps, and there
really are at most `2^64` peers.  Shard indices and counts are `Nat`.
-/
import Ethp2p.Strategy.Bitmap

namespace Ethp2p

/-- Peer identifier. -/
abbrev PeerId := UInt64

/-- Strategy-local token that ties a dispatch to its `chunkSent` callback. -/
abbrev DispatchHandle := UInt64

/-- Verdict on an inbound chunk. -/
inductive Verdict where
  | accepted
  | redundant
  | decoding
  | surplus
  | invalid
  | pending
deriving DecidableEq, Repr

/-- Outcome of a successful `takeChunk`. -/
structure TakeOutcome where
  verdict : Verdict
  complete : Bool
deriving DecidableEq, Repr

/-- Errors of `takeChunk`. -/
inductive TakeError where
  | outOfRange (idx total : Nat)
deriving DecidableEq, Repr

/-- Outbound chunk dispatch returned by `pollChunks`. -/
structure ChunkDispatch (ChunkId : Type) where
  peer : PeerId
  chunkId : ChunkId
  handle : DispatchHandle
  payload : Bytes
deriving DecidableEq, Repr

/-- Per-session interface of a broadcast coding scheme.

`pollBound` is not a method of the trait.  `drain_session` polls until a poll comes back empty, and
its comment says the loop is "bounded by the strategy's per-peer budget"; `pollBound` is that
budget, so that the loop can be written as a recursion.  That the bound is never reached before the
loop's own exits is a theorem about each strategy, not an assumption. -/
class Strategy (S : Type) (ChunkId RoutingUpdate DecodeError : outParam Type) where
  haveChunk : S → ChunkId → Bool
  verifyChunk : S → ChunkId → Bytes → Verdict
  takeChunk : S → ChunkId → Bytes → Except TakeError TakeOutcome × S
  attachPeer : S → PeerId → S
  detachPeer : S → PeerId → Bool → S
  routingUpdate : S → PeerId → RoutingUpdate → List DispatchHandle × S
  pollChunks : S → List (ChunkDispatch ChunkId) × S
  pollRouting : S → Bool → Option RoutingUpdate × S
  chunkSent : S → PeerId → DispatchHandle → Bool → S
  progress : S → Nat × Nat
  decode : S → Except DecodeError Bytes
  pollBound : S → Nat

/-! ## Reed-Solomon parameters -/

/-- Reed-Solomon strategy configuration.  The defaults are those of the source. -/
structure RsConfig where
  dataShards : Nat := 16
  parityShards : Nat := 16
  chunkLen : Nat := 0
  bitmapThreshold : Nat := 50
  forwardMultiplier : UInt32 := 4
  disableBitmap : Bool := false
deriving DecidableEq, Repr

/-- Errors of `RsConfig.new`. -/
inductive ConfigError where
  | bitmapThresholdOutOfRange (v : Nat)
  | dataShardsZero
deriving DecidableEq, Repr

/-- Construct a configuration, validating the field invariants. -/
def RsConfig.new (dataShards parityShards chunkLen bitmapThreshold : Nat) (forwardMultiplier : UInt32)
    (disableBitmap : Bool) : Except ConfigError RsConfig :=
  if dataShards = 0 then
    .error .dataShardsZero
  else if bitmapThreshold > 100 then
    .error (.bitmapThresholdOutOfRange bitmapThreshold)
  else
    .ok { dataShards, parityShards, chunkLen, bitmapThreshold, forwardMultiplier, disableBitmap }

end Ethp2p
