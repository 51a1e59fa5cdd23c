/-
# Ethp2p.Strategy.Rs.RoundTrip — any `num_data` shards give the payload back, fewer give an error.

`Encoded.decode_ok` already says what enough shards give.  Here is the other half, the two checks that
the shards of an encoding pass, and the whole statement about `encode`.
-/
import Ethp2p.Strategy.Rs.OneShard

namespace Ethp2p

/-- `reconstruct_data` reports an error when fewer than `k` of the `k + m` shards are present. -/
def RsNeedsEnough [Crates] : Prop :=
  ∀ k m (buckets : List (Option Bytes)), buckets.length = k + m →
    buckets.countP (·.isSome) < k → ∃ e, Crates.rsReconstructData k m buckets = .error e

section RoundTrip

variable [Crates] {payload : Bytes} {config : RsConfig} {preamble : Preamble}
  {shards : List Bytes} {k m chunkLen : Nat}

namespace Encoded

/-- **Fewer than `num_data` shards are an error**, whichever they are. -/
theorem decode_few (h : Encoded payload config preamble shards k m chunkLen) (hsha : Sha256Len)
    (hrs : RsCorrect) (hneeds : RsNeedsEnough) {pairs : List (Nat × Bytes)}
    (hpicks : Picks shards pairs) (hfew : pairs.length < k) :
    ∃ e, decode preamble pairs = .error e := by
  cases pairs with
  | nil => exact ⟨_, by simp [decode, h.validatePreamble_ok hsha hrs]; rfl⟩
  | cons first rest =>
    have hfirst : first.2.length = chunkLen :=
      h.length_of_mem hrs (List.mem_of_getElem? (hpicks.2 first List.mem_cons_self))
    obtain ⟨buckets, hfill, hlen, -, hcount⟩ := h.fillBuckets_picks hrs hpicks
    obtain ⟨e, he⟩ := hneeds k m buckets hlen (hcount ▸ hfew)
    refine ⟨.rs e, ?_⟩
    simp only [decode, h.validatePreamble_ok hsha hrs, List.head?_cons, h.asUsize_numData,
      h.asUsize_numParity, hfirst, hfill, h.rsNew, he]

/-- The shards of an encoding pass the check of a chunk. -/
theorem verifyChunk_shard (h : Encoded payload config preamble shards k m chunkLen)
    (hsha : Sha256Len) (hrs : RsCorrect) {i : Nat} {shard : Bytes} (hi : shards[i]? = some shard) :
    verifyChunk preamble i shard = .accepted := by
  rw [h.verifyChunk_eq hsha hrs, List.getElem?_map, hi]
  simp

end Encoded

/-- **`decode` undoes `encode` on any `num_data` of the shards.**  For every payload and configuration
that `encode` takes: the preamble is valid, every shard passes its check, any `num_data` or more
distinct shards in any order decode to the payload, and fewer give an error. -/
theorem decode_encode (hsha : Sha256Len) (hrs : RsCorrect) (hneeds : RsNeedsEnough)
    (henc : encode payload config = .ok (preamble, shards)) :
    validatePreamble preamble = .ok ()
    ∧ (shards.length : Int) = preamble.numData.toInt + preamble.numParity.toInt
    ∧ (∀ i shard, shards[i]? = some shard → verifyChunk preamble i shard = .accepted)
    ∧ ∀ pairs, Picks shards pairs →
      (preamble.numData.toInt ≤ pairs.length → decode preamble pairs = .ok payload)
      ∧ (pairs.length < preamble.numData.toInt → ∃ e, decode preamble pairs = .error e) := by
  obtain ⟨k, m, chunkLen, h⟩ := encode_ok henc
  refine ⟨h.validatePreamble_ok hsha hrs, ?_, fun i shard => h.verifyChunk_shard hsha hrs,
    fun pairs hpicks => ⟨fun hk => ?_, fun hk => ?_⟩⟩
  · rw [h.length_shards hrs, h.numData, h.numParity]
    push_cast
    rfl
  · rw [h.numData] at hk
    exact h.decode_ok hsha hrs hpicks.1 hpicks.2 (by exact_mod_cast hk)
  · rw [h.numData] at hk
    exact h.decode_few hsha hrs hneeds hpicks (by exact_mod_cast hk)

end RoundTrip

namespace OneShard

attribute [local instance] oneShard

theorem rsNeedsEnough : RsNeedsEnough := by
  intro k m buckets _ hcount
  refine ⟨if k ≠ 1 then .invalidIndex else .tooFewShardsPresent, ?_⟩
  show reconstructData k m buckets = _
  unfold reconstructData
  split
  · rfl
  case isFalse hk =>
    have hnone : buckets.find? (·.isSome) = none := by
      rw [List.find?_eq_none]
      have hzero : buckets.countP (·.isSome) = 0 := by omega
      simpa using List.countP_eq_zero.mp hzero
    rw [hnone]

end OneShard

/-- The parity shard alone gives the message back, no shard does not. -/
theorem decode_encode_oneByte :
    letI := oneShard
    decode OneShard.preamble [(1, [1])] = .ok [1] ∧ ∃ e, decode OneShard.preamble [] = .error e :=
  letI := oneShard
  have h := (decode_encode OneShard.sha256Len OneShard.rsCorrect OneShard.rsNeedsEnough
    OneShard.encode_eq).2.2.2
  ⟨(h [(1, [1])] ⟨by decide, by simp⟩).1 (by decide), (h [] ⟨by decide, by simp⟩).2 (by decide)⟩

end Ethp2p
