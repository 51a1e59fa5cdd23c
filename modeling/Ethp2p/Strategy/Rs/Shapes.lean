/-
# Ethp2p.Strategy.Rs.Shapes — which valid preambles a relay can decode.

A relay builds its strategy from a preamble that an unknown peer sent, so everything after
`validatePreamble` rests on what that function lets through.  It checks the signs, adds the two counts
as `u32`, and compares the sum with the number of hashes.  Two things it leaves open:

* the constructor adds the same counts as `i32`, which overflows from `2^31` on;
* the Reed-Solomon crate wants a data and a parity shard and at most 256 in all, which only `decode`
  finds out, once the relay has collected enough chunks.

A relay that holds enough chunks of one length therefore decodes, up to the final digest, exactly when
the shape is one the crate takes (`Preamble.Codable`).
-/
import Ethp2p.Reconstruction
import Ethp2p.Strategy.Rs.Store

namespace Ethp2p

/-! ## What is assumed of the crate -/

/-- `ReedSolomon::new` takes exactly the shapes with a data shard, a parity shard and at most 256
shards. -/
def RsShapes [Crates] : Prop :=
  ∀ k m, Crates.rsNew k m = .ok () ↔ 1 ≤ k ∧ 1 ≤ m ∧ k + m ≤ 256

/-- At this shape `reconstruct_data` succeeds on `k` or more non-empty shards of one length, and then
every data shard is present and has that length. -/
def RsFills [Crates] (k m : Nat) : Prop :=
  ∀ len (buckets : List (Option Bytes)), 0 < len → buckets.length = k + m →
    (∀ b, some b ∈ buckets → b.length = len) → k ≤ buckets.countP (·.isSome) →
    ∃ out, ∃ data : List Bytes, Crates.rsReconstructData k m buckets = .ok out
      ∧ out.take k = data.map some ∧ data.length = k ∧ ∀ b ∈ data, b.length = len

/-! ## Preambles -/

namespace Preamble

variable {p : Preamble}

/-- The crate takes the shape. -/
def Codable (p : Preamble) : Prop :=
  1 ≤ p.numData.toInt ∧ 1 ≤ p.numParity.toInt ∧ p.numData.toInt + p.numParity.toInt ≤ 256

instance : Decidable p.Codable := inferInstanceAs (Decidable (_ ∧ _ ∧ _))

/-- The `i32` sum of the counts does not overflow, and it is the number of hashes. -/
def AddsUp (p : Preamble) : Prop :=
  (p.numData + p.numParity).toInt = p.numData.toInt + p.numParity.toInt
    ∧ (p.numData + p.numParity).toInt = p.hashes.length

end Preamble

open Preamble

namespace Preamble.Counts

variable {p : Preamble} {k m : Nat}

/-- The addition overflows exactly from `2^31` on. -/
theorem addsUp_iff (h : p.Counts k m) : p.AddsUp ↔ k + m < 2 ^ 31 := by
  constructor
  · rintro ⟨hsum, -⟩
    have hlt := (p.numData + p.numParity).toInt_lt
    rw [hsum, h.numData, h.numParity] at hlt
    omega
  · intro hlt
    have hsum := toInt_add_of_lt h.numData h.numParity hlt
    refine ⟨?_, ?_⟩
    · rw [hsum, h.numData, h.numParity]
      push_cast
      rfl
    · rw [hsum, h.hashes]

/-- Reed–Solomon codes exactly these shapes. -/
theorem codable_iff (h : p.Counts k m) : p.Codable ↔ 1 ≤ k ∧ 1 ≤ m ∧ k + m ≤ 256 := by
  unfold Codable
  rw [h.numData, h.numParity]
  norm_cast

end Preamble.Counts

/-! ## Relays -/

namespace RsStrategy

/-- The strategy runs on this preamble and has a slot for each shard. -/
structure Relays (p : Preamble) (s : RsStrategy) : Prop where
  preamble_eq : s.preamble = p
  length_eq : s.chunks.length = totalOf p

/-- The strategy holds at least `num_data` chunks, all of one length, that cover the message. -/
structure Loaded (s : RsStrategy) (len : Nat) : Prop where
  pos : 0 < len
  equal : ∀ slot ∈ s.chunks, ∀ d ∈ slot, d.length = len
  enough : s.preamble.numData.toInt ≤ s.heldPairs.length
  covers : s.preamble.length.toInt ≤ s.preamble.numData.toInt * len

variable [Crates] {p : Preamble} {s : RsStrategy} {k m len : Nat}

/-- Decoding gets as far as the digest of the message. -/
def Decodes (s : RsStrategy) : Prop :=
  (∃ out, s.reconstruct = .ok out) ∨ s.reconstruct = .error .messageHashMismatch

/-- A relay keeps its preamble. -/
theorem Relays.runOps (h : s.Relays p) (ops : List StrategyOp) : (s.runOps ops).Relays p :=
  have hstores := s.runOps_stores ops
  ⟨hstores.preamble_eq.trans h.preamble_eq, hstores.length_eq.trans h.length_eq⟩

omit [Crates] in
/-- A relay is built for a preamble that was accepted. -/
theorem newRelayWithSeed_relays {config : RsConfig} {seed : UInt64}
    (h : newRelayWithSeed p config seed = .ok s) : validatePreamble p = .ok () ∧ s.Relays p := by
  unfold newRelayWithSeed at h
  split at h
  case h_1 => cases h
  case h_2 hvalid =>
    obtain rfl := Except.ok.inj h
    exact ⟨hvalid, rfl, List.length_replicate⟩

omit [Crates] in
/-- The chunks of a loaded relay fill as many buckets as there are chunks, all of one length. -/
theorem Loaded.fillBuckets {n : Nat} (h : s.Loaded len) (hlen : s.chunks.length = n) :
    ∃ buckets, fillBuckets n len s.heldPairs (List.replicate n none) = .ok buckets
      ∧ buckets.length = n ∧ (∀ b, some b ∈ buckets → b.length = len)
      ∧ buckets.countP (·.isSome) = s.heldPairs.length := by
  -- the stored chunks, with some string of the right length where there is none
  let code := s.chunks.map fun c => c.getD (List.replicate len 0)
  have hcode : ∀ (i : Nat) b, code[i]? = some b → b.length = len := by
    intro i b hb
    obtain ⟨c, hc, rfl⟩ := List.mem_map.mp (List.mem_of_getElem? hb)
    cases c with
    | none => simp
    | some d =>
      exact h.equal (some d) hc d rfl
  have hfree : ∀ q ∈ s.heldPairs, q.1 < n ∧ q.2.length = len ∧ code[q.1]? = some q.2
      ∧ (List.replicate n (none : Option Bytes))[q.1]? = some none := by
    rintro ⟨i, d⟩ hq
    have hd := (s.mem_heldPairs i d).mp hq
    have hi : i < n := hlen ▸ (List.getElem?_eq_some_iff.mp hd).1
    refine ⟨hi, h.equal _ (List.mem_of_getElem? hd) d rfl, ?_, ?_⟩
    · rw [List.getElem?_map, hd]
      rfl
    · rw [List.getElem?_replicate, if_pos hi]
  have hempty : ∀ (i : Nat) b,
      (List.replicate n (none : Option Bytes))[i]? = some (some b) → code[i]? = some b := by
    intro i b hb
    rw [List.getElem?_replicate] at hb
    split at hb <;> simp at hb
  obtain ⟨buckets, hfill, hblen, hbcode, hcount⟩ :=
    fillBuckets_ok s.heldPairs (List.replicate n none) (by simp) s.heldPairs_nodup hfree hempty
  refine ⟨buckets, hfill, hblen, fun b hb => ?_, ?_⟩
  · obtain ⟨i, hi⟩ := List.mem_iff_getElem?.mp hb
    exact hcode i b (hbcode i b hi)
  · rw [hcount, List.countP_replicate]
    simp

omit [Crates] in
/-- Filling the buckets checks no hash. -/
theorem fillBuckets_ne_mismatch (total shardLen : Nat) (pairs : List (Nat × Bytes))
    (buckets : List (Option Bytes)) :
    fillBuckets total shardLen pairs buckets ≠ .error .messageHashMismatch := by
  induction pairs generalizing buckets with
  | nil => simp [fillBuckets]
  | cons q pairs ih =>
    unfold fillBuckets
    split
    · simp
    split
    · simp
    split
    · simp
    · exact ih _

/-- A decoding that gets as far as the digest had its shape accepted. -/
theorem Decodes.rsNew (h : s.Decodes) :
    Crates.rsNew (asUsize s.preamble.numData) (asUsize s.preamble.numParity) = .ok () := by
  cases hnew : Crates.rsNew (asUsize s.preamble.numData) (asUsize s.preamble.numParity) with
  | ok => rfl
  | error e =>
    -- every exit up to the shape check is another error
    have hfill := fun total len buckets => fillBuckets_ne_mismatch total len s.heldPairs buckets
    unfold Decodes reconstruct decode at h
    simp only [hnew] at h
    cases hvalid : validatePreamble s.preamble with
    | error e => simp [hvalid] at h
    | ok =>
      cases hhead : s.heldPairs.head? with
      | none => simp [hvalid, hhead] at h
      | some first =>
        simp only [hvalid, hhead] at h
        split at h
        case h_1 e he =>
          rcases h with ⟨out, h⟩ | h
          · cases h
          · obtain rfl := Except.error.inj h
            exact (hfill _ _ _ he).elim
        case h_2 => simp at h

/-- **A loaded relay decodes** when the crate takes its shape. -/
theorem Loaded.decodes (h : s.Loaded len) (hcounts : s.preamble.Counts k m)
    (hvalid : validatePreamble s.preamble = .ok ()) (hlen : s.chunks.length = k + m)
    (hnew : Crates.rsNew k m = .ok ()) (hfills : RsFills k m) (hk : 1 ≤ k) : s.Decodes := by
  have henough : k ≤ s.heldPairs.length := by
    have henough := h.enough
    rw [hcounts.numData] at henough
    exact_mod_cast henough
  obtain ⟨first, rest, hpairs⟩ : ∃ q rest, s.heldPairs = q :: rest :=
    List.exists_cons_of_length_pos (by omega)
  have hfirst : first.2.length = len :=
    h.equal _ (List.mem_of_getElem? ((s.mem_heldPairs first.1 first.2).mp
      (hpairs ▸ List.mem_cons_self))) _ rfl
  obtain ⟨buckets, hfill, hblen, hequal, hcount⟩ := h.fillBuckets hlen
  obtain ⟨out, data, hrec, htake, hdlen, hdata⟩ :=
    hfills len buckets h.pos hblen hequal (hcount ▸ henough)
  -- the `k` data shards cover the declared length, so only the digest can fail
  have hflat : data.flatten.length = k * len := by
    rw [List.length_flatten, List.map_congr_left hdata, List.map_const', hdlen, List.sum_replicate]
    rfl
  have hcover : asUsize s.preamble.length ≤ data.flatten.length := by
    have hcovers := h.covers
    have hnonneg := hcounts.length
    rw [hcounts.numData] at hcovers
    rw [hflat]
    unfold asUsize
    have hlt := s.preamble.length.toInt_lt
    zify
    omega
  unfold Decodes reconstruct
  have hhead : s.heldPairs.head? = some first := by rw [hpairs, List.head?_cons]
  have hdecode : decode s.preamble s.heldPairs
      = if sha256 (data.flatten.take (asUsize s.preamble.length)) ≠ s.preamble.hash then
          .error .messageHashMismatch
        else .ok (data.flatten.take (asUsize s.preamble.length)) := by
    simp only [decode, hvalid, hhead, hcounts.asUsize_numData, hcounts.asUsize_numParity, hfirst,
      hfill, hnew, hrec, htake, concatShards_map_some]
    rw [if_neg (by omega)]
  rw [hdecode]
  split
  · exact .inr rfl
  · exact .inl ⟨_, rfl⟩

/-- **Valid preambles and what follows them.**  The `i32` sum of a relay's counts does not overflow
exactly when it is below `2^31`.  A relay that holds enough chunks of one length, after whatever
operations, has a sum that does not overflow and decodes as far as the digest exactly when the
Reed-Solomon crate takes its shape. -/
theorem relay_decodes_iff (hshapes : RsShapes) {config : RsConfig} {seed : UInt64}
    (hnew : newRelayWithSeed p config seed = .ok s)
    (hfills : RsFills (asUsize p.numData) (asUsize p.numParity)) :
    (p.AddsUp ↔ p.numData.toInt + p.numParity.toInt < 2 ^ 31)
    ∧ ∀ ops len, (s.runOps ops).Loaded len →
      (p.AddsUp ∧ (s.runOps ops).Decodes ↔ p.Codable) := by
  obtain ⟨hvalid, hrelays⟩ := newRelayWithSeed_relays hnew
  obtain ⟨k, m, hcounts⟩ := validatePreamble_counts hvalid
  rw [hcounts.asUsize_numData, hcounts.asUsize_numParity] at hfills
  refine ⟨?_, fun ops len hloaded => ?_⟩
  · rw [hcounts.addsUp_iff, hcounts.numData, hcounts.numParity]
    norm_cast
  · have hrun := hrelays.runOps ops
    rw [hcounts.addsUp_iff, hcounts.codable_iff]
    constructor
    · rintro ⟨-, hdecodes⟩
      have hok := hdecodes.rsNew
      rw [hrun.preamble_eq, hcounts.asUsize_numData, hcounts.asUsize_numParity] at hok
      exact (hshapes k m).mp hok
    · intro hshape
      refine ⟨by omega, ?_⟩
      rw [← hrun.preamble_eq] at hcounts hvalid
      refine hloaded.decodes hcounts hvalid ?_ ((hshapes k m).mpr hshape) hfills hshape.1
      rw [hrun.length_eq, ← hrun.preamble_eq, hcounts.totalOf_eq]

end RsStrategy

/-! ## One data shard -/

namespace OneShard

attribute [local instance] oneShard

theorem rsShapes : RsShapes := by
  intro k m
  refine ⟨new_ok, fun h => ?_⟩
  show new k m = .ok ()
  unfold new
  rw [if_neg (by omega), if_neg (by omega), if_neg (by omega)]

theorem rsFills (m : Nat) : RsFills 1 m := by
  intro len buckets _ hlen hequal hcount
  obtain ⟨slot, hslot⟩ : ∃ slot, buckets.find? (·.isSome) = some slot := by
    rw [← Option.isSome_iff_exists, List.find?_isSome]
    simpa using List.countP_pos_iff.mp hcount
  obtain ⟨b, rfl⟩ := Option.isSome_iff_exists.mp (List.find?_some hslot)
  have hb := hequal b (List.mem_of_find?_eq_some hslot)
  refine ⟨buckets.set 0 (some b), [b], ?_, ?_, rfl, by simpa using hb⟩
  · show reconstructData 1 m buckets = _
    simp [reconstructData, hslot]
  · obtain ⟨first, others, rfl⟩ : ∃ first others, buckets = first :: others :=
      List.exists_cons_of_length_pos (by omega)
    simp

/-- The preamble of the message `01` in one data shard and no parity. -/
def bare : Preamble := { preamble with numParity := 0, hashes := [digest [1]] }

/-- A relay strategy on that preamble. -/
def bareRelay : RsStrategy :=
  RsStrategy.withParts {} bare [none] (EmitPlanner.new 1 7 (.relay 4))

end OneShard

section Runs

attribute [local instance] oneShard

open RsStrategy OneShard

/-- A message of one byte. -/
theorem relay_decodes_oneByte :
    preamble.AddsUp ∧ (OneShard.relay.runOps [.take 1 [1]]).Decodes := by
  have hloaded : (OneShard.relay.runOps [.take 1 [1]]).Loaded 1 :=
    ⟨by decide, by decide, by decide, by decide⟩
  exact ((relay_decodes_iff rsShapes newRelay_eq (rsFills 1)).2 _ 1 hloaded).mpr (by decide)

/-- Without a parity shard the relay holds the whole message and cannot decode it. -/
theorem relay_not_decodes_bare :
    ¬ ∀ (p : Preamble) (config : RsConfig) (seed : UInt64) (s : RsStrategy),
      newRelayWithSeed p config seed = .ok s → ∀ ops len, (s.runOps ops).Loaded len →
        p.AddsUp ∧ (s.runOps ops).Decodes := by
  intro hall
  have hloaded : (bareRelay.runOps [.take 0 [1]]).Loaded 1 :=
    ⟨by decide, by decide, by decide, by decide⟩
  have herr : (bareRelay.runOps [.take 0 [1]]).reconstruct = .error (.rs .tooFewParityShards) := rfl
  rcases (hall bare {} 7 bareRelay rfl _ 1 hloaded).2 with ⟨out, hout⟩ | hmis
  · rw [herr] at hout
    cases hout
  · rw [herr] at hmis
    cases hmis

end Runs

end Ethp2p
