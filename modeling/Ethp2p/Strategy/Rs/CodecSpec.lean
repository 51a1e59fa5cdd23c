/-
# Ethp2p.Strategy.Rs.CodecSpec — what the codec functions guarantee.

The three hypotheses about the third-party crates that results of this development name, and the
lemmas that carry them through `encode`, `validatePreamble`, `verifyChunk` and `decode`:

* `Sha256Len` — a digest has 32 bytes;
* `RsCorrect` — the Reed-Solomon crate accepts only shapes with `1 ≤ k`, `1 ≤ m`, `k + m ≤ 256`,
  writes parity in place (data shards and lengths unchanged), and reconstructs the data shards from
  any `k` shards of a codeword;
* collision freedom is stated where it is used, on the byte strings involved.

`Encoded` is the inversion of a successful `encode`; everything below it is about an `Encoded`
message and never unfolds `encode` again.
-/
import Ethp2p.Strategy.Rs.Codec

namespace Ethp2p

/-! ## The hypotheses on the crates -/

/-- SHA-256 digests have 32 bytes. -/
def Sha256Len [Crates] : Prop := ∀ b : Bytes, (sha256 b).length = hashLen

/-- The documented behaviour of `reed-solomon-erasure` over GF(2^8). -/
structure RsCorrect [Crates] : Prop where
  shape : ∀ k m, Crates.rsNew k m = .ok () → 1 ≤ k ∧ 1 ≤ m ∧ k + m ≤ 256
  encode_lengths : ∀ k m shards out, Crates.rsEncode k m shards = .ok out →
    out.map List.length = shards.map List.length
  encode_data : ∀ k m shards out, Crates.rsEncode k m shards = .ok out →
    out.take k = shards.take k
  reconstruct : ∀ k m shards code buckets, Crates.rsNew k m = .ok () →
    Crates.rsEncode k m shards = .ok code → buckets.length = k + m →
    (∀ (i : Nat) b, buckets[i]? = some (some b) → code[i]? = some b) →
    k ≤ buckets.countP (·.isSome) →
    ∃ out, Crates.rsReconstructData k m buckets = .ok out ∧ out.take k = (code.take k).map some

/-- `ReedSolomon::encode` writes the parity shards in place: no shard changes its length, and the data shards
do not change at all. -/
structure RsKeepsData [Crates] : Prop where
  lengths : ∀ k m shards out, Crates.rsEncode k m shards = .ok out →
    out.map List.length = shards.map List.length
  data : ∀ k m shards out, Crates.rsEncode k m shards = .ok out → out.take k = shards.take k

theorem RsCorrect.keepsData [Crates] (hrs : RsCorrect) : RsKeepsData :=
  ⟨hrs.encode_lengths, hrs.encode_data⟩

/-! ## Integer conversions -/

theorem toInt_ofNat_of_lt {n : Nat} (h : n < 2 ^ 31) : (Int32.ofNat n).toInt = n :=
  Int32.toInt_ofNat_of_lt h

/-- What fits an `i32` is the same number there. -/
theorem i32TryFrom_eq_some {n : Nat} {x : Int32} (h : i32TryFrom n = some x) :
    n < 2 ^ 31 ∧ x.toInt = n := by
  unfold i32TryFrom at h
  split at h
  case isTrue hn =>
    obtain rfl := Option.some.inj h
    exact ⟨hn, toInt_ofNat_of_lt hn⟩
  case isFalse => simp at h

theorem asUsize_of_toInt {x : Int32} {n : Nat} (hn : n < 2 ^ 31) (h : x.toInt = n) :
    asUsize x = n := by
  simp only [asUsize, h]
  omega

theorem asU32_of_toInt {x : Int32} {n : Nat} (hn : n < 2 ^ 31) (h : x.toInt = n) :
    asU32 x = n := by
  simp only [asU32, h]
  omega

/-- The wrapped sum of two counts that fit is the sum. -/
theorem toInt_add_of_lt {x y : Int32} {a b : Nat} (hx : x.toInt = a) (hy : y.toInt = b)
    (h : a + b < 2 ^ 31) : (x + y).toInt = (a + b : Nat) := by
  rw [Int32.toInt_add, hx, hy, Int.bmod_eq_of_le] <;> push_cast <;> omega

/-! ## The inversion of `encode` -/

/-- What a successful `encode payload config = .ok (preamble, shards)` amounts to, with the resolved
shape `k`, `m`, `chunkLen`. -/
structure Encoded [Crates] (payload : Bytes) (config : RsConfig) (preamble : Preamble)
    (shards : List Bytes) (k m chunkLen : Nat) : Prop where
  nonempty : payload ≠ []
  shape : resolveShape payload.length config = (k, m, chunkLen)
  rsNew : Crates.rsNew k m = .ok ()
  rsEncode : Crates.rsEncode k m (fillShards (k + m) chunkLen payload) = .ok shards
  k_lt : k < 2 ^ 31
  m_lt : m < 2 ^ 31
  length_lt : payload.length < 2 ^ 31
  numData : preamble.numData.toInt = k
  numParity : preamble.numParity.toInt = m
  length : preamble.length.toInt = payload.length
  hashes : preamble.hashes = shards.map sha256
  hash : preamble.hash = sha256 payload

/-- **What `encode` checked, and what it wrote**, whenever it succeeds. -/
theorem encode_ok [Crates] {payload : Bytes} {config : RsConfig} {preamble : Preamble}
    {shards : List Bytes} (h : encode payload config = .ok (preamble, shards)) :
    ∃ k m chunkLen, Encoded payload config preamble shards k m chunkLen := by
  unfold encode at h
  split at h
  case isTrue => simp at h
  case isFalse hne =>
    rcases hshape : resolveShape payload.length config with ⟨k, m, chunkLen⟩
    simp only [hshape] at h
    split at h
    case h_1 => simp at h
    case h_2 hnew =>
      split at h
      case h_1 => simp at h
      case h_2 out henc =>
        split at h
        case h_2 => simp at h
        case h_1 nd np len hd hp hl =>
          simp only [Except.ok.injEq, Prod.mk.injEq] at h
          obtain ⟨rfl, rfl⟩ := h
          obtain ⟨hk, hnd⟩ := i32TryFrom_eq_some hd
          obtain ⟨hm, hnp⟩ := i32TryFrom_eq_some hp
          obtain ⟨hlen, hln⟩ := i32TryFrom_eq_some hl
          exact ⟨k, m, chunkLen, by simpa using hne, hshape, hnew, henc, hk, hm, hlen, hnd, hnp,
            hln, rfl, rfl⟩

/-! ## Layout of the filled shards -/

/-- Chunk `i` of the payload, padded with zeros to a whole shard. -/
def paddedChunk (chunkLen : Nat) (payload : Bytes) (i : Nat) : Bytes :=
  (payload.drop (i * chunkLen)).take chunkLen
    ++ List.replicate (chunkLen - ((payload.drop (i * chunkLen)).take chunkLen).length) 0

/-- A chunk that begins before the end is one of the chunks. -/
theorem lt_divCeil {len c i : Nat} (hc : 0 < c) : i < divCeil len c ↔ i * c < len := by
  unfold divCeil
  rw [Nat.lt_div_iff_mul_lt hc]
  omega

theorem le_divCeil_mul (len : Nat) {c : Nat} (hc : 0 < c) : len ≤ divCeil len c * c :=
  not_lt.mp ((lt_divCeil hc).not.mp (Nat.lt_irrefl _))

/-- The loop that fills the shards cuts the payload into padded chunks. -/
theorem fillShards_eq (total : Nat) {chunkLen : Nat} (hc : 0 < chunkLen) (payload : Bytes) :
    fillShards total chunkLen payload = (List.range total).map (paddedChunk chunkLen payload) := by
  apply List.ext_getElem
  · simp [fillShards]
  · intro i h1 h2
    simp only [fillShards, chunksOf, List.getElem_mapIdx, List.getElem_replicate, List.getElem_map,
      List.getElem_range, List.getElem?_map, paddedChunk]
    by_cases hi : i < divCeil payload.length chunkLen
    · rw [List.getElem?_range hi]
      simp [List.drop_replicate]
    · rw [List.getElem?_eq_none (by simpa using hi)]
      have hlen : payload.length ≤ i * chunkLen := by
        rw [lt_divCeil hc] at hi
        omega
      simp [List.drop_eq_nil_of_le hlen]

/-- All shards are of one length. -/
theorem length_paddedChunk (chunkLen : Nat) (payload : Bytes) (i : Nat) :
    (paddedChunk chunkLen payload i).length = chunkLen := by
  simp only [paddedChunk, List.length_append, List.length_replicate, List.length_take]
  omega

/-- The first `k` filled shards, concatenated, are the payload followed by zeros. -/
theorem flatten_paddedChunks (chunkLen : Nat) (payload : Bytes) (k : Nat) :
    ((List.range k).map (paddedChunk chunkLen payload)).flatten
      = payload.take (k * chunkLen) ++ List.replicate (k * chunkLen - payload.length) 0 := by
  induction k with
  | zero => simp
  | succ k ih =>
    rw [List.range_succ, List.map_append, List.flatten_append, ih]
    simp only [List.map_cons, List.map_nil, List.flatten_cons, List.flatten_nil, List.append_nil,
      paddedChunk]
    rcases Nat.lt_or_ge (k * chunkLen) payload.length with h | h
    · -- the shards before this one are full: no padding yet
      rw [show k * chunkLen - payload.length = 0 from by omega]
      simp only [List.replicate_zero, List.append_nil, Nat.succ_mul, List.length_take,
        List.length_drop]
      rw [← List.append_assoc, ← List.take_add]
      congr 2
      omega
    · -- the payload is used up: this shard is all padding
      rw [List.drop_eq_nil_of_le h, List.take_of_length_le h,
        List.take_of_length_le (show payload.length ≤ (k + 1) * chunkLen by
          rw [Nat.succ_mul]; omega)]
      simp only [List.take_nil, List.nil_append, List.length_nil, Nat.sub_zero, List.append_assoc,
        List.replicate_append_replicate, Nat.succ_mul]
      congr 2
      omega

/-! ## Shape facts of an encoded message -/

section Encoded

variable [Crates] {payload : Bytes} {config : RsConfig} {preamble : Preamble}
  {shards : List Bytes} {k m chunkLen : Nat}

omit [Crates] in
/-- The resolved shape of a non-empty payload has non-empty shards that cover the payload. -/
theorem resolveShape_covers {len : Nat} {config : RsConfig} {k m chunkLen : Nat}
    (h : resolveShape len config = (k, m, chunkLen)) (hlen : 0 < len) (hk : 1 ≤ k) :
    0 < chunkLen ∧ len ≤ k * chunkLen := by
  unfold resolveShape at h
  split at h
  case isTrue hc =>
    simp only [Prod.mk.injEq] at h
    obtain ⟨rfl, -, rfl⟩ := h
    exact ⟨hc, le_divCeil_mul len hc⟩
  case isFalse hc =>
    simp only [Prod.mk.injEq] at h
    obtain ⟨rfl, -, rfl⟩ := h
    have hle : len ≤ config.dataShards * divCeil len config.dataShards := by
      rw [Nat.mul_comm]
      exact le_divCeil_mul len hk
    refine ⟨Nat.pos_of_ne_zero fun h0 => ?_, hle⟩
    rw [h0] at hle
    omega

namespace Encoded

/-- Reed–Solomon takes no other shapes than these. -/
theorem shape_bounds (h : Encoded payload config preamble shards k m chunkLen) (hrs : RsCorrect) :
    1 ≤ k ∧ 1 ≤ m ∧ k + m ≤ 256 :=
  hrs.shape k m h.rsNew

theorem chunkLen_pos (h : Encoded payload config preamble shards k m chunkLen)
    (hrs : RsCorrect) : 0 < chunkLen :=
  (resolveShape_covers h.shape (List.length_pos_iff.mpr h.nonempty) (h.shape_bounds hrs).1).1

/-- The data shards have room for the payload. -/
theorem covers (h : Encoded payload config preamble shards k m chunkLen) (hrs : RsCorrect) :
    payload.length ≤ k * chunkLen :=
  (resolveShape_covers h.shape (List.length_pos_iff.mpr h.nonempty) (h.shape_bounds hrs).1).2

/-- Every shard has the resolved length. -/
theorem map_length_of_keepsData (h : Encoded payload config preamble shards k m chunkLen)
    (hkeeps : RsKeepsData) (hpos : 0 < chunkLen) :
    shards.map List.length = List.replicate (k + m) chunkLen := by
  rw [hkeeps.lengths _ _ _ _ h.rsEncode, fillShards_eq _ hpos, List.map_map]
  apply List.eq_replicate_iff.mpr
  simp [length_paddedChunk]

/-- The data shards, concatenated, are the message and zeros. -/
theorem flatten_of_keepsData (h : Encoded payload config preamble shards k m chunkLen)
    (hkeeps : RsKeepsData) (hpos : 0 < chunkLen) (hcovers : payload.length ≤ k * chunkLen) :
    (shards.take k).flatten = payload ++ List.replicate (k * chunkLen - payload.length) 0 := by
  rw [hkeeps.data _ _ _ _ h.rsEncode, fillShards_eq _ hpos, ← List.map_take, List.take_range,
    Nat.min_eq_left (Nat.le_add_right k m), flatten_paddedChunks, List.take_of_length_le hcovers]

theorem map_length_shards (h : Encoded payload config preamble shards k m chunkLen)
    (hrs : RsCorrect) : shards.map List.length = List.replicate (k + m) chunkLen :=
  h.map_length_of_keepsData hrs.keepsData (h.chunkLen_pos hrs)

/-- There are as many shards as the preamble says. -/
theorem length_shards (h : Encoded payload config preamble shards k m chunkLen)
    (hrs : RsCorrect) : shards.length = k + m := by
  simpa using congrArg List.length (h.map_length_shards hrs)

theorem length_of_mem (h : Encoded payload config preamble shards k m chunkLen)
    (hrs : RsCorrect) {s : Bytes} (hs : s ∈ shards) : s.length = chunkLen := by
  have hm : s.length ∈ shards.map List.length := List.mem_map_of_mem hs
  rw [h.map_length_shards hrs] at hm
  exact List.eq_of_mem_replicate hm

/-- The data shards, concatenated and truncated to the message length, are the message. -/
theorem flatten_data (h : Encoded payload config preamble shards k m chunkLen)
    (hrs : RsCorrect) :
    payload.length ≤ (shards.take k).flatten.length
      ∧ (shards.take k).flatten.take payload.length = payload := by
  have hdata := h.flatten_of_keepsData hrs.keepsData (h.chunkLen_pos hrs) (h.covers hrs)
  rw [hdata]
  exact ⟨by simp, by simp⟩

/-! ## Validation and verification -/

/-- Its counts add up without an overflow. -/
theorem checkedTotal_eq (h : Encoded payload config preamble shards k m chunkLen) :
    checkedTotal preamble = some (k + m) := by
  have hk := h.k_lt
  have hm := h.m_lt
  simp only [checkedTotal, u32TryFrom, h.numData, h.numParity, Int.toNat_natCast]
  rw [if_neg (by omega), if_neg (by omega)]
  simp only []
  rw [if_pos (by omega)]

/-- A preamble that was made passes its own validation. -/
theorem validatePreamble_ok (h : Encoded payload config preamble shards k m chunkLen)
    (hsha : Sha256Len) (hrs : RsCorrect) : validatePreamble preamble = .ok () := by
  unfold validatePreamble
  rw [if_neg (by rw [h.numData, h.numParity]; omega), if_neg (by rw [h.length]; omega),
    h.checkedTotal_eq]
  simp only []
  rw [if_neg (by simp [h.hashes, h.length_shards hrs])]
  have hfind : preamble.hashes.zipIdx.find? (fun hi => hi.1.length ≠ hashLen) = none := by
    rw [List.find?_eq_none]
    rintro ⟨d, i⟩ hmem
    have hd : d ∈ preamble.hashes := (List.mem_zipIdx' hmem).2 ▸ List.getElem_mem _
    rw [h.hashes] at hd
    obtain ⟨s, -, rfl⟩ := List.mem_map.mp hd
    simp [hsha s]
  rw [hfind]
  simp only []
  rw [if_neg (by simp [h.hash, hsha payload])]

/-- A chunk is accepted at `idx` exactly when its digest is that of shard `idx`. -/
theorem verifyChunk_eq (h : Encoded payload config preamble shards k m chunkLen)
    (hsha : Sha256Len) (hrs : RsCorrect) (idx : Nat) (data : Bytes) :
    verifyChunk preamble idx data
      = if (shards.map sha256)[idx]? = some (sha256 data) then .accepted else .invalid := by
  have hlen := h.length_shards hrs
  simp only [verifyChunk, h.checkedTotal_eq, h.hashes]
  by_cases hi : idx ≥ k + m
  · rw [if_pos hi, List.getElem?_eq_none (by simpa [hlen] using hi)]
    simp
  · have hi' : idx < shards.length := by omega
    rw [if_neg hi, List.getElem?_map, List.getElem?_eq_getElem hi']
    simp only [Option.map_some, hsha _, if_true, Option.some.injEq]
    by_cases heq : sha256 data = sha256 shards[idx]
    · simp [heq]
    · rw [if_neg heq, if_neg (Ne.symm heq)]

theorem asUsize_numData (h : Encoded payload config preamble shards k m chunkLen) :
    asUsize preamble.numData = k :=
  asUsize_of_toInt h.k_lt h.numData

theorem asUsize_numParity (h : Encoded payload config preamble shards k m chunkLen) :
    asUsize preamble.numParity = m :=
  asUsize_of_toInt h.m_lt h.numParity

theorem asUsize_length (h : Encoded payload config preamble shards k m chunkLen) :
    asUsize preamble.length = payload.length :=
  asUsize_of_toInt h.length_lt h.length

end Encoded

/-! ## Filling the buckets -/

omit [Crates] in
/-- Distinct in-range shards of one length all go into free buckets; each bucket then holds its
shard or nothing, and as many buckets are full as there are shards. -/
theorem fillBuckets_ok {total shardLen : Nat} {code : List Bytes} :
    ∀ (pairs : List (Nat × Bytes)) (buckets : List (Option Bytes)),
      buckets.length = total →
      (pairs.map Prod.fst).Nodup →
      (∀ p ∈ pairs, p.1 < total ∧ p.2.length = shardLen ∧ code[p.1]? = some p.2
        ∧ buckets[p.1]? = some none) →
      (∀ (i : Nat) b, buckets[i]? = some (some b) → code[i]? = some b) →
      ∃ out, fillBuckets total shardLen pairs buckets = .ok out ∧ out.length = total
        ∧ (∀ (i : Nat) b, out[i]? = some (some b) → code[i]? = some b)
        ∧ out.countP (·.isSome) = buckets.countP (·.isSome) + pairs.length
  | [], buckets, hlen, _, _, hcode => ⟨buckets, rfl, hlen, hcode, by simp⟩
  | (idx, data) :: rest, buckets, hlen, hnd, hmem, hcode => by
    obtain ⟨hidx, hdata, hshard, hfree⟩ := hmem (idx, data) List.mem_cons_self
    simp only [List.map_cons, List.nodup_cons, List.mem_map, not_exists, not_and] at hnd
    have hfree' : buckets.getD idx none = none := by simp [List.getD, hfree]
    obtain ⟨out, hout, holen, hocode, hcount⟩ :=
      @fillBuckets_ok total shardLen code rest
        (buckets.set idx (some data)) (by simpa using hlen) hnd.2
        (by
          intro p hp
          obtain ⟨h1, h2, h3, h4⟩ := hmem p (List.mem_cons_of_mem _ hp)
          exact ⟨h1, h2, h3, by rw [List.getElem?_set_ne (fun h => hnd.1 p hp h.symm), h4]⟩)
        (by
          intro i b hb
          by_cases hi : idx = i
          · subst hi
            rw [List.getElem?_set_self (by omega)] at hb
            simp only [Option.some.injEq] at hb
            exact hb ▸ hshard
          · exact hcode i b (by rwa [List.getElem?_set_ne hi] at hb))
    -- the pair goes into a free bucket, which counts one more
    refine ⟨out, ?_, holen, hocode, ?_⟩
    · simp only [fillBuckets, hfree', Option.isSome_none, Bool.false_eq_true, if_false]
      rw [if_neg (by simpa using hidx), if_neg (by simpa using hdata)]
      exact hout
    · have hset : (buckets.set idx (some data)).countP (·.isSome)
          = buckets.countP (·.isSome) + 1 := by
        have hb : idx < buckets.length := by omega
        have hg : buckets[idx] = none := by simpa [List.getElem?_eq_getElem hb] using hfree
        rw [List.countP_set hb, hg]
        simp
      rw [hcount, hset, List.length_cons]
      omega

omit [Crates] in
/-- Shards that are all there are joined. -/
theorem concatShards_map_some (l : List Bytes) : concatShards (l.map some) = .ok l.flatten := by
  induction l with
  | nil => rfl
  | cons s l ih => simp [concatShards, ih]

/-- The pairs are distinct shards of an encoding, in any order. -/
def Picks (shards : List Bytes) (pairs : List (Nat × Bytes)) : Prop :=
  (pairs.map Prod.fst).Nodup ∧ ∀ p ∈ pairs, shards[p.1]? = some p.2

/-- Distinct shards of an encoding fill as many buckets as there are shards. -/
theorem Encoded.fillBuckets_picks (h : Encoded payload config preamble shards k m chunkLen)
    (hrs : RsCorrect) {pairs : List (Nat × Bytes)} (hpicks : Picks shards pairs) :
    ∃ buckets, fillBuckets (k + m) chunkLen pairs (List.replicate (k + m) none) = .ok buckets
      ∧ buckets.length = k + m ∧ (∀ (i : Nat) b, buckets[i]? = some (some b) → shards[i]? = some b)
      ∧ buckets.countP (·.isSome) = pairs.length := by
  have hfree : ∀ p ∈ pairs, p.1 < k + m ∧ p.2.length = chunkLen ∧ shards[p.1]? = some p.2
      ∧ (List.replicate (k + m) (none : Option Bytes))[p.1]? = some none := by
    intro p hp
    have hs := hpicks.2 p hp
    obtain ⟨hlt, -⟩ := List.getElem?_eq_some_iff.mp hs
    have hidx : p.1 < k + m := h.length_shards hrs ▸ hlt
    refine ⟨hidx, h.length_of_mem hrs (List.mem_of_getElem? hs), hs, ?_⟩
    rw [List.getElem?_replicate, if_pos hidx]
  have hempty : ∀ (i : Nat) b,
      (List.replicate (k + m) (none : Option Bytes))[i]? = some (some b) → shards[i]? = some b := by
    intro i b hb
    rw [List.getElem?_replicate] at hb
    split at hb <;> simp at hb
  obtain ⟨buckets, hfill, hlen, hcode, hcount⟩ :=
    fillBuckets_ok pairs (List.replicate (k + m) none) (by simp) hpicks.1 hfree hempty
  refine ⟨buckets, hfill, hlen, hcode, ?_⟩
  rw [hcount, List.countP_replicate]
  simp

/-- **`decode` undoes `encode` on any `k` of the shards**: whichever distinct shards are given, and
in whatever order. -/
theorem Encoded.decode_ok (h : Encoded payload config preamble shards k m chunkLen)
    (hsha : Sha256Len) (hrs : RsCorrect) {pairs : List (Nat × Bytes)}
    (hnd : (pairs.map Prod.fst).Nodup) (hmem : ∀ p ∈ pairs, shards[p.1]? = some p.2)
    (hk : k ≤ pairs.length) : decode preamble pairs = .ok payload := by
  have hone := (h.shape_bounds hrs).1
  obtain ⟨first, rest, rfl⟩ : ∃ p rest, pairs = p :: rest :=
    List.exists_cons_of_length_pos (by omega)
  have hfirst : first.2.length = chunkLen :=
    h.length_of_mem hrs (List.mem_of_getElem? (hmem first List.mem_cons_self))
  obtain ⟨buckets, hfill, hblen, hbcode, hcount⟩ := h.fillBuckets_picks hrs ⟨hnd, hmem⟩
  obtain ⟨out, hrec, htake⟩ := hrs.reconstruct k m _ shards buckets h.rsNew h.rsEncode hblen hbcode
    (by omega)
  obtain ⟨hle, hpre⟩ := h.flatten_data hrs
  simp only [decode, h.validatePreamble_ok hsha hrs, List.head?_cons, h.asUsize_numData,
    h.asUsize_numParity, hfirst, hfill, h.rsNew, hrec, htake, concatShards_map_some,
    h.asUsize_length, hpre, h.hash]
  rw [if_neg (by omega), if_neg (by simp)]

/-- Only a chunk with the announced digest is accepted. -/
theorem verifyChunk_accepted {preamble : Preamble} {idx : Nat} {data : Bytes}
    (h : verifyChunk preamble idx data = .accepted) :
    preamble.hashes[idx]? = some (sha256 data) := by
  unfold verifyChunk at h
  split at h
  · cases h
  split at h
  · cases h
  split at h
  case h_1 d hd =>
    split_ifs at h with hlen hdigest
    rw [hd, hdigest]
  case h_2 => cases h

/-- Whatever `decode` returns has the digest and the length the preamble announces. -/
theorem decode_hash {preamble : Preamble} {pairs : List (Nat × Bytes)} {out : Bytes}
    (h : decode preamble pairs = .ok out) : sha256 out = preamble.hash := by
  unfold decode at h
  dsimp only at h
  -- every exit but the last one is an error
  repeat' split at h
  all_goals first
    | contradiction
    | (obtain rfl := Except.ok.inj h
       exact not_ne_iff.mp ‹_›)

end Encoded

end Ethp2p
