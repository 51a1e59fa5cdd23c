/-
# Ethp2p.Strategy.Rs.Codec — origin encoding, chunk verification, k-of-n decoding.

Embeds `strategy/rs/encode.rs`, `strategy/rs/verify.rs` and `strategy/rs/decode.rs`.

Three things these files call are not in the repository: the SHA-256 digest (`sha2`), the
Reed-Solomon codec over GF(2^8) (`reed-solomon-erasure`) and the protobuf codec of the generated
`Preamble` message (`prost`).  They enter as the PARAMETER `Crates`, and what a result needs from them is a
named hypothesis of that result (`Sha256Len`, `RsCorrect`, ...), each a documented fact of the crate.

`i32` fields of the preamble are `Int32`; `as u32` / `as usize` casts are taken modulo the target
width, so a wrapped sum wraps here too.
-/
import Ethp2p.Strategy.Basic

namespace Ethp2p

/-- SHA-256 digest size in bytes. -/
def hashLen : Nat := 32

/-- `rs.proto`'s `Preamble`: the session preamble of a Reed-Solomon coded message. -/
structure Preamble where
  numData : Int32
  numParity : Int32
  length : Int32
  hashes : List Bytes
  hash : Bytes
deriving DecidableEq

/-- `reed_solomon_erasure::Error`. -/
inductive RsError where
  | tooFewShards
  | tooManyShards
  | tooFewDataShards
  | tooManyDataShards
  | tooFewParityShards
  | tooManyParityShards
  | tooFewBufferShards
  | tooManyBufferShards
  | incorrectShardSize
  | tooFewShardsPresent
  | emptyShard
  | invalidShardFlags
  | invalidIndex
deriving DecidableEq, Repr

/-- The third-party functions the strategy calls. -/
class Crates where
  /-- `Sha256::digest`. -/
  sha256 : Bytes → Bytes
  /-- `ReedSolomon::new(data_shards, parity_shards)`. -/
  rsNew : Nat → Nat → Except RsError Unit
  /-- `ReedSolomon::encode`: the shard buffers with the parity shards filled in. -/
  rsEncode : Nat → Nat → List Bytes → Except RsError (List Bytes)
  /-- `ReedSolomon::reconstruct_data`: the buckets with the missing data shards filled in. -/
  rsReconstructData : Nat → Nat → List (Option Bytes) → Except RsError (List (Option Bytes))
  /-- `Preamble::encode_to_vec`. -/
  preambleEncode : Preamble → Bytes
  /-- `Preamble::decode`; the error is rendered as its message. -/
  preambleDecode : Bytes → Except String Preamble

export Crates (sha256)

/-! ## Integer conversions -/

/-- `x as usize`. -/
def asUsize (x : Int32) : Nat := (x.toInt % 2 ^ 64).toNat

/-- `x as u32`. -/
def asU32 (x : Int32) : Nat := (x.toInt % 2 ^ 32).toNat

/-- `i32::try_from` of an unsigned value. -/
def i32TryFrom (n : Nat) : Option Int32 := if n < 2 ^ 31 then some (Int32.ofNat n) else none

/-- `u32::try_from` of an `i32`. -/
def u32TryFrom (x : Int32) : Option Nat := if x.toInt < 0 then none else some x.toInt.toNat

/-- `usize::div_ceil`. -/
def divCeil (a b : Nat) : Nat := (a + b - 1) / b

/-- `slice::chunks`: consecutive pieces of `len` elements, the last one possibly shorter. -/
def chunksOf (len : Nat) (l : Bytes) : List Bytes :=
  (List.range (divCeil l.length len)).map fun i => (l.drop (i * len)).take len

/-! ## `encode.rs` -/

/-- Errors of `encode`. -/
inductive EncodeError where
  | rs (e : RsError)
  | emptyPayload
  | shardCountOverflow
deriving DecidableEq, Repr

/-- The shard shape `(data_shards, parity_shards, chunk_len)` for a payload length.  A fixed
`chunk_len` overrides the configured shard counts. -/
def resolveShape (payloadLen : Nat) (config : RsConfig) : Nat × Nat × Nat :=
  if config.chunkLen > 0 then
    let chunkLen := config.chunkLen
    let dataShards := divCeil payloadLen chunkLen
    (dataShards, dataShards, chunkLen)
  else
    let dataShards := config.dataShards
    let parityShards := config.parityShards
    let chunkLen := divCeil payloadLen dataShards
    (dataShards, parityShards, chunkLen)

/-- `total` zeroed shards of `chunkLen` bytes with the payload's chunks copied over the front ones;
the bytes a short chunk does not cover stay zero. -/
def fillShards (total chunkLen : Nat) (payload : Bytes) : List Bytes :=
  (List.replicate total (List.replicate chunkLen (0 : UInt8))).mapIdx fun i shard =>
    match (chunksOf chunkLen payload)[i]? with
    | some chunk => chunk ++ shard.drop chunk.length
    | none => shard

/-- Encode `payload` as Reed-Solomon shards: the preamble with all shard hashes and the message
hash, and the data shards followed by the parity shards. -/
def encode [Crates] (payload : Bytes) (config : RsConfig) :
    Except EncodeError (Preamble × List Bytes) :=
  if payload.isEmpty then
    .error .emptyPayload
  else
    let (dataShards, parityShards, chunkLen) := resolveShape payload.length config
    let total := dataShards + parityShards
    match Crates.rsNew dataShards parityShards with
    | .error e => .error (.rs e)
    | .ok () =>
      match Crates.rsEncode dataShards parityShards (fillShards total chunkLen payload) with
      | .error e => .error (.rs e)
      | .ok shards =>
        match i32TryFrom dataShards, i32TryFrom parityShards, i32TryFrom payload.length with
        | some numData, some numParity, some length =>
          .ok ({ numData, numParity, length, hashes := shards.map sha256, hash := sha256 payload },
            shards)
        | _, _, _ => .error .shardCountOverflow

/-! ## `verify.rs` -/

/-- Errors of `validatePreamble`. -/
inductive PreambleError where
  | negativeShardCount (numData numParity : Int)
  | shardCountOverflow
  | hashCountMismatch (hashes expected : Nat)
  | hashLengthInvalid (idx len : Nat)
  | messageHashLengthInvalid (len : Nat)
  | negativeLength (length : Int)
deriving DecidableEq, Repr

/-- `num_data + num_parity` as a checked `u32` sum; `none` if a count is negative or the sum
overflows. -/
def checkedTotal (p : Preamble) : Option Nat :=
  match u32TryFrom p.numData, u32TryFrom p.numParity with
  | some d, some pp => if d + pp < 2 ^ 32 then some (d + pp) else none
  | _, _ => none

/-- Validate a preamble's shape. -/
def validatePreamble (p : Preamble) : Except PreambleError Unit :=
  if p.numData.toInt < 0 ∨ p.numParity.toInt < 0 then
    .error (.negativeShardCount p.numData.toInt p.numParity.toInt)
  else if p.length.toInt < 0 then
    .error (.negativeLength p.length.toInt)
  else
    match checkedTotal p with
    | none => .error .shardCountOverflow
    | some total =>
      if p.hashes.length ≠ total then
        .error (.hashCountMismatch p.hashes.length total)
      else
        match p.hashes.zipIdx.find? (fun hi => hi.1.length ≠ hashLen) with
        | some (h, i) => .error (.hashLengthInvalid i h.length)
        | none =>
          if p.hash.length ≠ hashLen then
            .error (.messageHashLengthInvalid p.hash.length)
          else
            .ok ()

/-- Verify a single chunk against the preamble: accepted only on a 32-byte hash match. -/
def verifyChunk [Crates] (preamble : Preamble) (idx : Nat) (data : Bytes) : Verdict :=
  match checkedTotal preamble with
  | none => .invalid
  | some total =>
    if idx ≥ total then
      .invalid
    else
      match preamble.hashes[idx]? with
      | some h =>
        if h.length = hashLen then
          if sha256 data = h then .accepted else .invalid
        else
          .invalid
      | none => .invalid

/-! ## `decode.rs` -/

/-- Errors of `decode`. -/
inductive DecodeError where
  | preamble (e : PreambleError)
  | rs (e : RsError)
  | shardIndexOutOfRange (idx total : Nat)
  | duplicateShardIndex (idx : Nat)
  | inconsistentShardLength (expected got : Nat)
  | messageHashMismatch
deriving DecidableEq, Repr

/-- Place the input shards into their buckets, rejecting an index out of range, a length other than
the first shard's, and an index seen before. -/
def fillBuckets (total shardLen : Nat) :
    List (Nat × Bytes) → List (Option Bytes) → Except DecodeError (List (Option Bytes))
  | [], buckets => .ok buckets
  | (idx, data) :: rest, buckets =>
    if idx ≥ total then
      .error (.shardIndexOutOfRange idx (total % 2 ^ 32))
    else if data.length ≠ shardLen then
      .error (.inconsistentShardLength shardLen data.length)
    else if (buckets.getD idx none).isSome then
      .error (.duplicateShardIndex idx)
    else
      fillBuckets total shardLen rest (buckets.set idx (some data))

/-- Concatenate the data shards; a bucket still empty is an error. -/
def concatShards : List (Option Bytes) → Except DecodeError Bytes
  | [] => .ok []
  | none :: _ => .error (.rs .tooFewShards)
  | some s :: rest =>
    match concatShards rest with
    | .error e => .error e
    | .ok out => .ok (s ++ out)

/-- Reconstruct the payload from `(index, bytes)` pairs, truncate it to `preamble.length` and check
it against `preamble.hash`. -/
def decode [Crates] (preamble : Preamble) (shardsIn : List (Nat × Bytes)) :
    Except DecodeError Bytes :=
  match validatePreamble preamble with
  | .error e => .error (.preamble e)
  | .ok () =>
    let dataShards := asUsize preamble.numData
    let parityShards := asUsize preamble.numParity
    let total := dataShards + parityShards
    match shardsIn.head? with
    | none => .error (.rs .tooFewShards)
    | some (_, first) =>
      let shardLen := first.length
      match fillBuckets total shardLen shardsIn (List.replicate total none) with
      | .error e => .error e
      | .ok buckets =>
        match Crates.rsNew dataShards parityShards with
        | .error e => .error (.rs e)
        | .ok () =>
          match Crates.rsReconstructData dataShards parityShards buckets with
          | .error e => .error (.rs e)
          | .ok buckets =>
            match concatShards (buckets.take dataShards) with
            | .error e => .error e
            | .ok out =>
              let length := asUsize preamble.length
              if length > out.length then
                .error (.inconsistentShardLength length out.length)
              else if sha256 (out.take length) ≠ preamble.hash then
                .error .messageHashMismatch
              else
                .ok (out.take length)

end Ethp2p
