/-
# Ethp2p.Strategy.Rs.OneShard — the crates at one data shard.

Results about the strategy are stated for every `Crates` and name what they need of it.  This module
gives a `Crates` that satisfies those needs, so that the results can be run: `ReedSolomon` with ONE
data shard, whose encoding matrix is a column of ones, so that every parity shard is a copy of the
data shard; SHA-256 on the few strings the runs use; and the protobuf form of the preamble.
-/
import Ethp2p.Strategy.Rs.CodecSpec
import Ethp2p.Strategy.Rs.State

namespace Ethp2p

namespace OneShard

/-- SHA-256 of the one-byte strings `01` and `02`, and a string of 32 zeros elsewhere. -/
def digest (b : Bytes) : Bytes :=
  if b = [1] then
    [75, 245, 18, 47, 52, 69, 84, 197, 59, 222, 46, 187, 140, 210, 183, 227, 209, 96, 10, 214, 49,
      195, 133, 165, 215, 204, 226, 60, 119, 133, 69, 154]
  else if b = [2] then
    [219, 193, 180, 201, 0, 255, 228, 141, 87, 91, 93, 165, 198, 56, 4, 1, 37, 246, 93, 176, 254,
      62, 36, 73, 75, 118, 234, 152, 100, 87, 217, 134]
  else
    List.replicate 32 0

/-- The shapes `ReedSolomon::new` takes. -/
def new (k m : Nat) : Except RsError Unit :=
  if k = 0 then .error .tooFewDataShards
  else if m = 0 then .error .tooFewParityShards
  else if 256 < k + m then .error .tooManyShards
  else .ok ()

/-- One data shard: the parity shards are copies of it. -/
def encodeShards (k m : Nat) (shards : List Bytes) : Except RsError (List Bytes) :=
  match shards with
  | [] => .error .tooFewShards
  | data :: _ =>
    if k ≠ 1 then .error .invalidIndex
    else if shards.length < 1 + m then .error .tooFewShards
    else if 1 + m < shards.length then .error .tooManyShards
    else if shards.map List.length ≠ List.replicate (1 + m) data.length then
      .error .incorrectShardSize
    else .ok (List.replicate (1 + m) data)

/-- One data shard: any present shard is the data shard. -/
def reconstructData (k _m : Nat) (buckets : List (Option Bytes)) :
    Except RsError (List (Option Bytes)) :=
  if k ≠ 1 then .error .invalidIndex
  else
    match buckets.find? (·.isSome) with
    | none => .error .tooFewShardsPresent
    | some shard => .ok (buckets.set 0 shard)

/-- `x` as the low byte of a varint; the runs have counts below 128. -/
def varint (x : Int32) : UInt8 := UInt8.ofNat (asU32 x)

/-- The protobuf form of a preamble with counts below 128 and 32-byte hashes. -/
def preambleBytes (p : Preamble) : Bytes :=
  [8, varint p.numData, 16, varint p.numParity, 24, varint p.length]
    ++ (p.hashes.map fun h => [34, 32] ++ h).flatten ++ [42, 32] ++ p.hash

/-- The preamble of the one-byte message `01` in one data and one parity shard. -/
def preamble : Preamble where
  numData := 1
  numParity := 1
  length := 1
  hashes := [digest [1], digest [1]]
  hash := digest [1]

end OneShard

/-- The crates at one data shard. -/
@[reducible]
def oneShard : Crates where
  sha256 := OneShard.digest
  rsNew := OneShard.new
  rsEncode := OneShard.encodeShards
  rsReconstructData := OneShard.reconstructData
  preambleEncode := OneShard.preambleBytes
  preambleDecode b :=
    if b = OneShard.preambleBytes OneShard.preamble then .ok OneShard.preamble
    else .error "failed to decode Protobuf message"

namespace OneShard

theorem sha256Len : @Sha256Len oneShard := by
  intro b
  show (digest b).length = hashLen
  unfold digest
  split
  · rfl
  · split <;> rfl

theorem new_ok {k m : Nat} (h : new k m = .ok ()) : 1 ≤ k ∧ 1 ≤ m ∧ k + m ≤ 256 := by
  unfold new at h
  split_ifs at h
  omega

/-- Every shard of it is the data shard. -/
theorem encodeShards_ok {k m : Nat} {shards out : List Bytes}
    (h : encodeShards k m shards = .ok out) :
    k = 1 ∧ ∃ data rest, shards = data :: rest ∧ out = List.replicate (1 + m) data
      ∧ shards.map List.length = List.replicate (1 + m) data.length := by
  unfold encodeShards at h
  split at h
  · contradiction
  case h_2 data rest =>
    split_ifs at h with hk hfew hmany hlen
    exact ⟨not_not.mp hk, data, rest, rfl, (Except.ok.inj h).symm, not_not.mp hlen⟩

/-- The code of one data shard, which is repeated, is a correct code. -/
theorem rsCorrect : @RsCorrect oneShard := by
  refine @RsCorrect.mk oneShard (fun _ _ => new_ok) ?_ ?_ ?_
  · intro k m shards out h
    obtain ⟨-, data, rest, rfl, rfl, hlen⟩ := encodeShards_ok h
    rw [hlen, List.map_replicate]
  · intro k m shards out h
    obtain ⟨rfl, data, rest, rfl, rfl, -⟩ := encodeShards_ok h
    rw [Nat.add_comm, List.replicate_succ]
    rfl
  · intro k m shards code buckets _ hcode hlen hsub hcount
    obtain ⟨rfl, data, rest, rfl, rfl, -⟩ := encodeShards_ok hcode
    -- some bucket is full, and what it holds is the data shard
    obtain ⟨slot, hslot⟩ : ∃ slot, buckets.find? (·.isSome) = some slot := by
      rw [← Option.isSome_iff_exists, List.find?_isSome]
      simpa using List.countP_pos_iff.mp hcount
    obtain ⟨b, rfl⟩ := Option.isSome_iff_exists.mp (List.find?_some hslot)
    obtain ⟨i, hi⟩ := List.mem_iff_getElem?.mp (List.mem_of_find?_eq_some hslot)
    obtain rfl : data = b := by
      have hdata := hsub i b hi
      rw [List.getElem?_replicate] at hdata
      split at hdata
      · exact Option.some.inj hdata
      · contradiction
    refine ⟨buckets.set 0 (some data), ?_, ?_⟩
    · show reconstructData 1 m buckets = _
      simp [reconstructData, hslot]
    · obtain ⟨first, others, rfl⟩ : ∃ first others, buckets = first :: others :=
        List.exists_cons_of_length_pos (by omega)
      simp [Nat.add_comm 1 m, List.replicate_succ]

/-- One data and one parity shard. -/
def config : RsConfig := { dataShards := 1, parityShards := 1 }

/-- The origin strategy of the message `01`. -/
def origin : RsStrategy :=
  RsStrategy.withParts config preamble [some [1], some [1]] (EmitPlanner.new 2 7 .origin)

/-- A relay strategy on the preamble of the message `01`. -/
def relay : RsStrategy :=
  RsStrategy.withParts {} preamble [none, none] (EmitPlanner.new 2 7 (.relay 4))

theorem newRelay_eq : RsStrategy.newRelayWithSeed preamble {} 7 = .ok relay := rfl

theorem encode_eq : @encode oneShard [1] config = .ok (preamble, [[1], [1]]) := rfl

theorem newOrigin_eq : @RsStrategy.newOriginWithSeed oneShard [1] config 7 = .ok origin := rfl

end OneShard

end Ethp2p
