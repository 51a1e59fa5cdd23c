/-
# Ethp2p.Strategy.BitmapSpec — the havelist is a finite set, and its bytes are that set.

A bitmap stands for the set of `i < n` with `get i`.  `Clean` says that the limbs hold nothing else: no
bit at a position from `n` on.  Every bitmap the operations make is clean (`Made.clean`), and a clean
bitmap is determined by its set, so `count_ones` counts it and the packed bytes carry it both ways.

Limbs and bytes are both read as one sequence of bits (`bitAt`), and every fact below is about that
sequence; the limb boundary and the byte boundary occur in `getLsbD_fromLeBytes` and
`bitAt_toLeBytes` only.
-/
import Ethp2p.Lib.BitBlocks
import Ethp2p.Strategy.Bitmap

namespace Ethp2p

open BitBlocks

/-- The bits of a byte string, lowest bit of the first byte first. -/
def bitOf (bytes : Bytes) (i : Nat) : Bool := bitAt (bytes.map UInt8.toBitVec) i

theorem bitOf_eq (bytes : Bytes) (i : Nat) :
    bitOf bytes i = (bytes.getD (i / 8) 0).toBitVec.getLsbD (i % 8) := by
  rw [bitOf, bitAt, List.getD_eq_getElem?_getD, List.getD_eq_getElem?_getD, List.getElem?_map]
  cases bytes[i / 8]? <;> rfl

namespace BitMap

/-! ## The set of a bitmap -/

/-- A bit is read off the limbs, if it is one of the map's. -/
theorem get_eq (b : BitMap) (idx : Nat) : b.get idx = (decide (idx < b.n) && bitAt b.bits idx) := by
  unfold get limbBit
  by_cases h : idx ≥ b.n
  · simp [h, Nat.not_lt.mpr h]
  · have hlt := Nat.lt_of_not_le h
    rw [if_neg h]
    simp only [hlt, decide_true, Bool.true_and]
    have hand : (b.bits.getD (idx / bitsPerLimb) 0 >>> (idx % bitsPerLimb)) &&& 1#64
        = (BitVec.ofBool ((b.bits.getD (idx / bitsPerLimb) 0).getLsbD (idx % bitsPerLimb))).setWidth 64 := by
      rw [BitVec.and_one_eq_setWidth_ofBool_getLsbD, BitVec.getLsbD_ushiftRight, Nat.add_zero]
    refine (congrArg (· == 1#64) hand).trans ?_
    show _ = (b.bits.getD (idx / bitsPerLimb) 0).getLsbD (idx % bitsPerLimb)
    cases (b.bits.getD (idx / bitsPerLimb) 0).getLsbD (idx % bitsPerLimb) <;> rfl

theorem get_of_le {b : BitMap} {i : Nat} (h : b.n ≤ i) : b.get i = false := if_pos h

/-- A bit that is set is one of the map's. -/
theorem lt_of_get {b : BitMap} {i : Nat} (h : b.get i) : i < b.n := by
  rcases Nat.lt_or_ge i b.n with hi | hi
  · exact hi
  · rw [get_of_le hi] at h
    cases h

/-- The limbs hold no bit from position `n` on. -/
def Clean (b : BitMap) : Prop := ∀ i, b.n ≤ i → bitAt b.bits i = false

/-- Of a clean map the limbs say all. -/
theorem Clean.get_eq {b : BitMap} (h : b.Clean) (i : Nat) : b.get i = bitAt b.bits i := by
  rw [BitMap.get_eq]
  rcases Nat.lt_or_ge i b.n with hi | hi
  · simp [hi]
  · simp [Nat.not_lt.mpr hi, h i hi]

/-- **A clean bitmap is its set.** -/
theorem Clean.ext {b b' : BitMap} (h : b.Clean) (h' : b'.Clean) (hn : b.n = b'.n)
    (hget : ∀ i, b.get i = b'.get i) : b = b' := by
  have hbits : b.bits = b'.bits :=
    ext_bitAt (by rw [b.length_bits, b'.length_bits, hn]) fun i => by
      rw [← h.get_eq, ← h'.get_eq, hget]
  obtain ⟨bits, n, _⟩ := b
  obtain ⟨bits', n', _⟩ := b'
  obtain rfl : bits = bits' := hbits
  obtain rfl : n = n' := hn
  rfl

theorem le_limbs (n : Nat) : n ≤ limbsFor n * 64 := by
  unfold limbsFor bitsPerLimb
  omega

/-! ## The operations -/

/-- A new map is clean, and empty. -/
theorem withCapacity_clean (n : Nat) : (withCapacity n).Clean :=
  fun i _ => bitAt_replicate_zero (limbsFor n) i

theorem get_withCapacity (n i : Nat) : (withCapacity n).get i = false := by
  rw [(withCapacity_clean n).get_eq]
  exact bitAt_replicate_zero (limbsFor n) i

/-- Setting a bit in range sets that bit of the limbs. -/
theorem set_ok {b : BitMap} {idx : Nat} (h : idx < b.n) :
    ∃ b', b.set idx = .ok b' ∧ b'.n = b.n
      ∧ ∀ i, bitAt b'.bits i = (bitAt b.bits i || decide (i = idx)) := by
  have hlimb : idx / 64 < b.bits.length := by
    have hle := le_limbs b.n
    rw [b.length_bits]
    omega
  refine ⟨_, if_neg (Nat.not_le_of_lt h), rfl, fun i => (bitAt_modify ..).trans ?_⟩
  have hbit : (BitVec.ofNat 64 (1 <<< (idx % 64))).getLsbD (i % 64) = decide (idx % 64 = i % 64) := by
    rw [BitVec.getLsbD_ofNat, Nat.one_shiftLeft, Nat.testBit_two_pow]
    have hrange : i % 64 < 64 := Nat.mod_lt i (by decide)
    simp [hrange]
  show (if idx / 64 = i / 64 ∧ idx / 64 < b.bits.length
    then (b.bits.getD (idx / 64) 0 ||| BitVec.ofNat 64 (1 <<< (idx % 64))).getLsbD (i % 64)
    else bitAt b.bits i) = _
  by_cases hq : idx / 64 = i / 64
  · have hsame : idx % 64 = i % 64 ↔ i = idx := by omega
    rw [if_pos ⟨hq, hlimb⟩, BitVec.getLsbD_or, hbit, hq, decide_eq_decide.mpr hsame]
    rfl
  · have hne : i ≠ idx := by
      rintro rfl
      exact hq rfl
    rw [if_neg fun hboth => hq hboth.1, decide_eq_false hne, Bool.or_false]

/-- Setting a bit adds it and nothing else. -/
theorem get_set {b b' : BitMap} {idx : Nat} (h : b.set idx = .ok b') (i : Nat) :
    b'.get i = (b.get i || decide (i = idx)) := by
  rcases Nat.lt_or_ge idx b.n with hidx | hidx
  · obtain ⟨b₁, hset, hn, hbits⟩ := set_ok hidx
    obtain rfl : b₁ = b' := Except.ok.inj (hset.symm.trans h)
    rw [get_eq, get_eq, hn, hbits]
    by_cases hi : i = idx
    · simp [hi, hidx]
    · simp [hi]
  · rw [set, if_pos hidx] at h
    cases h

/-- Merging merges the limbs. -/
theorem orMerge_ok {b other : BitMap} (h : b.n = other.n) :
    ∃ b', b.orMerge other = .ok b' ∧ b'.n = b.n
      ∧ ∀ i, bitAt b'.bits i = (bitAt b.bits i || bitAt other.bits i) := by
  unfold orMerge
  rw [dif_neg (not_not.mpr h)]
  exact ⟨_, rfl, rfl, bitAt_zipWith_or (by rw [b.length_bits, other.length_bits, h])⟩

/-- Merging is union. -/
theorem get_orMerge {b other b' : BitMap} (h : b.orMerge other = .ok b') (i : Nat) :
    b'.get i = (b.get i || other.get i) := by
  by_cases hn : b.n = other.n
  · obtain ⟨b₁, hmerge, hn₁, hbits⟩ := orMerge_ok hn
    obtain rfl : b₁ = b' := Except.ok.inj (hmerge.symm.trans h)
    rw [get_eq, get_eq, get_eq, hn₁, hbits, ← hn, Bool.and_or_distrib_left]
  · rw [orMerge, dif_pos hn] at h
    cases h

/-! ## Words and bytes -/

theorem length_toLeBytes (x : BitVec 64) : (toLeBytes x).length = 8 := by simp [toLeBytes]

/-- The bytes of a word have its bits. -/
theorem bitOf_toLeBytes (x : BitVec 64) {i : Nat} (h : i < 64) : bitOf (toLeBytes x) i = x.getLsbD i := by
  have hq : i / 8 < 8 := by omega
  have hr : i % 8 < 8 := Nat.mod_lt i (by decide)
  rw [bitOf_eq, toLeBytes, List.getD_eq_getElem?_getD, List.getElem?_map, List.getElem?_range hq]
  show ((x >>> (8 * (i / 8))).setWidth 8).getLsbD (i % 8) = _
  rw [BitVec.getLsbD_setWidth, BitVec.getLsbD_ushiftRight, Nat.div_add_mod]
  simp [hr]

/-- The bytes of a list of words have their bits. -/
theorem bitOf_flatMap_toLeBytes (l : List (BitVec 64)) (i : Nat) :
    bitOf (l.flatMap toLeBytes) i = bitAt l i := by
  induction l generalizing i with
  | nil => simp [bitOf, bitAt]
  | cons x l ih =>
    rw [bitOf, List.flatMap_cons, List.map_append, bitAt_append (by decide), List.length_map,
      length_toLeBytes]
    rcases Nat.lt_or_ge i 64 with h | h
    · rw [if_pos h, bitAt_cons_lt x l h]
      exact bitOf_toLeBytes x h
    · obtain ⟨j, rfl⟩ := Nat.exists_eq_add_of_le h
      rw [if_neg (by omega), bitAt_cons_add (by decide), Nat.add_sub_cancel_left]
      exact ih j

theorem length_flatMap_toLeBytes (l : List (BitVec 64)) : (l.flatMap toLeBytes).length = l.length * 8 := by
  induction l with
  | nil => rfl
  | cons x l ih => rw [List.flatMap_cons, List.length_append, length_toLeBytes, ih, List.length_cons]; omega

/-- What `as_bytes` writes of one limb. -/
def writeLimb (last nbytes : Nat) (out : Bytes) (limb : BitVec 64 × Nat) : Bytes :=
  if limb.2 = last then out ++ (toLeBytes limb.1).take (nbytes - out.length) else out ++ toLeBytes limb.1

/-- The limbs before the last are written whole. -/
theorem foldl_writeLimb {last nbytes : Nat} (l : List (BitVec 64)) (o : Nat) (out : Bytes)
    (h : o + l.length ≤ last) :
    (l.zipIdx o).foldl (writeLimb last nbytes) out = out ++ l.flatMap toLeBytes := by
  induction l generalizing o out with
  | nil => simp
  | cons x l ih =>
    rw [List.length_cons] at h
    have hwhole : writeLimb last nbytes out (x, o) = out ++ toLeBytes x := if_neg (by dsimp only; omega)
    rw [List.zipIdx_cons, List.foldl_cons, hwhole, ih (o + 1) _ (by omega), List.flatMap_cons,
      List.append_assoc]

/-- The bytes are those of the limbs, as many as hold `n` bits. -/
theorem asBytes_eq (b : BitMap) : b.asBytes = (b.bits.flatMap toLeBytes).take (bytesFor b.n) := by
  obtain ⟨bits, n, hlen⟩ := b
  show bits.zipIdx.foldl (writeLimb (bits.length - 1) (bytesFor n)) []
    = (bits.flatMap toLeBytes).take (bytesFor n)
  rcases List.eq_nil_or_concat bits with rfl | ⟨init, last, rfl⟩
  · simp
  · rw [List.concat_eq_append] at hlen ⊢
    have hlimbs : (init ++ [last]).length = init.length + 1 := List.length_append
    have hfull : init.length * 8 ≤ bytesFor n := by
      rw [hlimbs] at hlen
      unfold limbsFor bitsPerLimb at hlen
      unfold bytesFor
      omega
    have hwritten := length_flatMap_toLeBytes init
    rw [hlimbs, Nat.add_sub_cancel, List.zipIdx_append, List.foldl_append,
      foldl_writeLimb init 0 [] (by omega), List.nil_append, List.flatMap_append, List.take_append,
      List.take_of_length_le (by omega), hwritten]
    simp [writeLimb, hwritten]

/-- A map of `n` bits is written in as many bytes as `n` bits need. -/
theorem length_asBytes (b : BitMap) : b.asBytes.length = bytesFor b.n := by
  have hlimbs := b.length_bits
  rw [asBytes_eq, List.length_take, length_flatMap_toLeBytes, hlimbs]
  unfold bytesFor limbsFor bitsPerLimb
  omega

/-- The bytes have the bits of the limbs. -/
theorem bitOf_asBytes (b : BitMap) (i : Nat) :
    bitOf b.asBytes i = (decide (i < bytesFor b.n * 8) && bitAt b.bits i) := by
  rw [asBytes_eq, bitOf, List.map_take, bitAt_take]
  exact congrArg _ (bitOf_flatMap_toLeBytes b.bits i)

/-- The bits of a byte come before those of the rest. -/
theorem bitOf_cons (byte : UInt8) (s : Bytes) (i : Nat) :
    bitOf (byte :: s) i = if i < 8 then byte.toBitVec.getLsbD i else bitOf s (i - 8) := by
  split
  case isTrue h => exact bitAt_cons_lt byte.toBitVec _ h
  case isFalse h =>
    obtain ⟨j, rfl⟩ := Nat.exists_eq_add_of_le (Nat.not_lt.mp h)
    rw [Nat.add_sub_cancel_left]
    exact bitAt_cons_add (by decide) byte.toBitVec _ j

/-- Bytes taken into a word add their bits from their place on. -/
theorem getLsbD_foldl_bytes {k : Nat} (hk : k < 64) (s : Bytes) (o : Nat) (x : BitVec 64) :
    ((s.zipIdx o).foldl (fun w (b, i) => w ||| (b.toBitVec.setWidth 64 <<< (8 * i))) x).getLsbD k
      = (x.getLsbD k || (decide (8 * o ≤ k) && bitOf s (k - 8 * o))) := by
  induction s generalizing o x with
  | nil => simp [bitOf, bitAt]
  | cons byte s ih =>
    rw [List.zipIdx_cons, List.foldl_cons, ih, bitOf_cons, BitVec.getLsbD_or, BitVec.getLsbD_shiftLeft,
      BitVec.getLsbD_setWidth]
    by_cases ho : 8 * o ≤ k
    · by_cases hin : k - 8 * o < 8
      · have hpast : ¬ 8 * (o + 1) ≤ k := by omega
        simp [hk, ho, hin, hpast, Nat.not_lt.mpr ho, show k - 8 * o < 64 by omega]
      · have hnext : 8 * (o + 1) ≤ k := by omega
        have hpast : byte.toBitVec.getLsbD (k - 8 * o) = false := BitVec.getLsbD_of_ge _ _ (by omega)
        simp [hpast, ho, hin, hnext, show k - 8 * o - 8 = k - 8 * (o + 1) by omega]
    · have hpast : ¬ 8 * (o + 1) ≤ k := by omega
      simp [ho, hpast, Nat.lt_of_not_le ho]

/-- The word has the bits of its bytes. -/
theorem getLsbD_fromLeBytes (s : Bytes) {k : Nat} (hk : k < 64) :
    (fromLeBytes s).getLsbD k = bitOf s k := by
  have hall := getLsbD_foldl_bytes hk s 0 0
  rw [Nat.mul_zero, Nat.sub_zero] at hall
  refine hall.trans ?_
  simp

/-! ## Parsing -/

theorem bitOf_take (s : Bytes) (k i : Nat) : bitOf (s.take k) i = (decide (i < k * 8) && bitOf s i) := by
  rw [bitOf, List.map_take]
  exact bitAt_take ..

theorem bitOf_drop (s : Bytes) (k i : Nat) : bitOf (s.drop k) i = bitOf s (k * 8 + i) := by
  rw [bitOf, List.map_drop]
  exact bitAt_drop (by decide) ..

/-- The limbs as they are read, before the last one is masked. -/
theorem bitAt_limbs (s : Bytes) (n i : Nat) :
    bitAt ((List.range (limbsFor n)).map fun q => fromLeBytes ((s.drop (8 * q)).take 8)) i
      = (decide (i < limbsFor n * 64) && bitOf s i) := by
  have hr : i % 64 < 64 := Nat.mod_lt i (by decide)
  by_cases hq : i / 64 < limbsFor n
  · have hlt : i < limbsFor n * 64 := (Nat.div_lt_iff_lt_mul (by decide)).mp hq
    have hword : (fromLeBytes ((s.drop (8 * (i / 64))).take 8)).getLsbD (i % 64) = bitOf s i := by
      rw [getLsbD_fromLeBytes _ hr, bitOf_take, bitOf_drop, show 8 * (i / 64) * 8 + i % 64 = i by omega]
      simp [hr]
    rw [bitAt, List.getD_eq_getElem?_getD, List.getElem?_map, List.getElem?_range hq]
    simpa [hlt] using hword
  · have hlt : ¬ i < limbsFor n * 64 := fun h => hq ((Nat.div_lt_iff_lt_mul (by decide)).mpr h)
    rw [bitAt_of_le (by simpa using Nat.le_of_not_lt hlt), decide_eq_false hlt, Bool.false_and]

/-- The mask has the low `used` bits. -/
theorem getLsbD_mask {used : Nat} (hused : used < 64) (r : Nat) :
    (BitVec.ofNat 64 (1 <<< used) - 1).getLsbD r = decide (r < used) := by
  have hpow : 2 ^ used < 2 ^ 64 := Nat.pow_lt_pow_right (by decide) hused
  have hpos : 0 < 2 ^ used := Nat.two_pow_pos used
  have hval : (BitVec.ofNat 64 (1 <<< used) - 1#64).toNat = 2 ^ used - 1 := by
    rw [BitVec.toNat_sub, BitVec.toNat_ofNat, BitVec.toNat_ofNat, Nat.one_shiftLeft]
    omega
  exact (congrArg (Nat.testBit · r) hval).trans (Nat.testBit_two_pow_sub_one used r)

/-- **What `from_bytes` reads.**  It takes byte strings of one length only, and of their bits those below
`n`. -/
theorem fromBytes_ok {s : Bytes} {n : Nat} (h : s.length = bytesFor n) :
    ∃ b, fromBytes s n = .ok b ∧ b.n = n ∧ ∀ i, bitAt b.bits i = (decide (i < n) && bitOf s i) := by
  refine ⟨_, if_neg (not_not.mpr h), rfl, fun i => ?_⟩
  have hlimbs := bitAt_limbs s n i
  obtain ⟨limbs, hdef⟩ : ∃ limbs, (List.range (limbsFor n)).map
    (fun q => fromLeBytes ((s.drop (8 * q)).take 8)) = limbs := ⟨_, rfl⟩
  have hlen : limbs.length = limbsFor n := by rw [← hdef, List.length_map, List.length_range]
  have hcount : limbsFor n = (n + 63) / 64 := rfl
  have hused : n % 64 < 64 := Nat.mod_lt n (by decide)
  rw [hdef] at hlimbs
  dsimp only
  rw [hdef, bitAt_modify, hlen]
  show (if limbsFor n - 1 = i / 64 ∧ limbsFor n - 1 < limbsFor n then
    (if n % 64 > 0 then limbs.getD (limbsFor n - 1) 0 &&& (BitVec.ofNat 64 (1 <<< (n % 64)) - 1)
      else limbs.getD (limbsFor n - 1) 0).getLsbD (i % 64) else bitAt limbs i) = _
  split
  case isTrue hlast =>
    -- the last limb: of its bits, those below `n % 64` are below `n`, and if `n % 64 = 0` all are
    have hin : i < limbsFor n * 64 := by omega
    have hbit : (limbs.getD (limbsFor n - 1) 0).getLsbD (i % 64) = bitOf s i := by
      have hbit : bitAt limbs i = bitOf s i := by simpa [hin] using hlimbs
      rwa [bitAt, ← hlast.1] at hbit
    split
    case isTrue hpart =>
      have hbelow : i % 64 < n % 64 ↔ i < n := by omega
      rw [BitVec.getLsbD_and, getLsbD_mask hused, hbit, decide_eq_decide.mpr hbelow, Bool.and_comm]
    case isFalse hwhole =>
      have hbelow : i < n := by omega
      rw [hbit, decide_eq_true hbelow, Bool.true_and]
  case isFalse hbefore =>
    have hbelow : i < limbsFor n * 64 ↔ i < n := by omega
    rw [hlimbs, decide_eq_decide.mpr hbelow]

/-- Bytes of another length are refused. -/
theorem fromBytes_of_length_ne {s : Bytes} {n : Nat} (h : s.length ≠ bytesFor n) :
    fromBytes s n = .error (.invalidByteLength s.length (bytesFor n)) := if_pos h

/-! ## What the operations make -/

/-- The bitmaps of size `n`: empty ones, parsed ones, and what is made of them by `set` and
`or_merge`. -/
inductive Made : Nat → BitMap → Prop
  | withCapacity {n} : Made n (.withCapacity n)
  | fromBytes {n s b} (h : BitMap.fromBytes s n = .ok b) : Made n b
  | set {n b b' idx} (hb : Made n b) (h : b.set idx = .ok b') : Made n b'
  | orMerge {n n' b other b'} (hb : Made n b) (hother : Made n' other) (h : b.orMerge other = .ok b') :
      Made n b'

/-- **Every bitmap is clean**, whatever bytes it was parsed from. -/
theorem Made.clean {n : Nat} {b : BitMap} (h : Made n b) : b.n = n ∧ b.Clean := by
  induction h with
  | withCapacity => exact ⟨rfl, withCapacity_clean _⟩
  | @fromBytes n s b h =>
    by_cases hlen : s.length = bytesFor n
    · obtain ⟨b₁, hok, hn, hbits⟩ := fromBytes_ok hlen
      obtain rfl : b₁ = b := Except.ok.inj (hok.symm.trans h)
      refine ⟨hn, fun i hi => ?_⟩
      rw [hbits, decide_eq_false (by omega), Bool.false_and]
    · rw [fromBytes_of_length_ne hlen] at h
      cases h
  | @set n b b' idx _ h ih =>
    rcases Nat.lt_or_ge idx b.n with hidx | hidx
    · obtain ⟨b₁, hok, hn, hbits⟩ := set_ok hidx
      obtain rfl : b₁ = b' := Except.ok.inj (hok.symm.trans h)
      refine ⟨hn.trans ih.1, fun i hi => ?_⟩
      rw [hbits, ih.2 i (hn ▸ hi), decide_eq_false (by omega), Bool.false_or]
    · rw [BitMap.set, if_pos hidx] at h
      cases h
  | @orMerge n n' b other b' _ _ h ih ih' =>
    by_cases hn : b.n = other.n
    · obtain ⟨b₁, hok, hn₁, hbits⟩ := orMerge_ok hn
      obtain rfl : b₁ = b' := Except.ok.inj (hok.symm.trans h)
      refine ⟨hn₁.trans ih.1, fun i hi => ?_⟩
      rw [hbits, ih.2 i (hn₁ ▸ hi), ih'.2 i (hn ▸ hn₁ ▸ hi), Bool.or_false]
    · rw [BitMap.orMerge, dif_pos hn] at h
      cases h

/-- A clean bitmap counts its set. -/
theorem Clean.countOnes_eq {b : BitMap} (h : b.Clean) :
    b.countOnes = (List.range b.n).countP b.get := by
  have hle := le_limbs b.n
  have hsum : b.countOnes = (List.range (b.bits.length * 64)).countP (bitAt b.bits) :=
    sum_ones (by decide) b.bits
  have hget : bitAt b.bits = b.get := funext fun i => (h.get_eq i).symm
  have hrest : ((List.range (limbsFor b.n * 64 - b.n)).map (b.n + ·)).countP b.get = 0 := by
    rw [List.countP_eq_zero]
    intro i hi
    obtain ⟨j, -, rfl⟩ := List.mem_map.mp hi
    rw [get_of_le (Nat.le_add_right b.n j)]
    exact Bool.false_ne_true
  rw [hsum, hget, b.length_bits, show limbsFor b.n * 64 = b.n + (limbsFor b.n * 64 - b.n) by omega,
    List.range_add, List.countP_append, hrest, Nat.add_zero]

/-- The bytes of a clean bitmap have the bits of its set. -/
theorem Clean.bitOf_asBytes {b : BitMap} (h : b.Clean) (i : Nat) : bitOf b.asBytes i = b.get i := by
  rw [BitMap.bitOf_asBytes, h.get_eq]
  by_cases hi : i < bytesFor b.n * 8
  · rw [decide_eq_true hi, Bool.true_and]
  · have hle : b.n ≤ i := by
      unfold bytesFor at hi
      omega
    rw [decide_eq_false hi, h i hle, Bool.and_false]

/-- **A bitmap is read back from its bytes.** -/
theorem Clean.fromBytes_asBytes {b : BitMap} (h : b.Clean) : fromBytes b.asBytes b.n = .ok b := by
  obtain ⟨b', hok, hn, hbits⟩ := fromBytes_ok b.length_asBytes
  have hclean : b'.Clean := (Made.fromBytes hok).clean.2
  rw [hok]
  refine congrArg Except.ok (hclean.ext h hn fun i => ?_)
  rw [hclean.get_eq, hbits, h.bitOf_asBytes]
  rcases Nat.lt_or_ge i b.n with hi | hi
  · rw [decide_eq_true hi, Bool.true_and]
  · rw [get_of_le hi, Bool.and_false]

/-- **Bytes that were read are written back**, with the bits from `n` on cleared. -/
theorem bitOf_asBytes_fromBytes {s : Bytes} {n : Nat} {b : BitMap} (h : fromBytes s n = .ok b) (i : Nat) :
    bitOf b.asBytes i = (decide (i < n) && bitOf s i) := by
  have hmade := (Made.fromBytes h).clean
  by_cases hlen : s.length = bytesFor n
  · obtain ⟨b₁, hok, -, hbits⟩ := fromBytes_ok hlen
    obtain rfl : b₁ = b := Except.ok.inj (hok.symm.trans h)
    rw [hmade.2.bitOf_asBytes, hmade.2.get_eq, hbits]
  · rw [fromBytes_of_length_ne hlen] at h
    cases h

/-! ## The havelist is a faithful finite set -/

/-- Everything the bitmap shows is its set: no limb bit stands beside it, `count_ones` counts it, and the
packed bytes hold bit `i` at position `i % 8` of byte `i / 8` and give the bitmap back. -/
structure Faithful (n : Nat) (b : BitMap) : Prop where
  n_eq : b.n = n
  limbs : ∀ i, n ≤ i → (b.bits.getD (i / 64) 0).getLsbD (i % 64) = false
  out_of_range : ∀ i, n ≤ i → b.get i = false
  count : b.countOnes = (List.range n).countP b.get
  length_bytes : b.asBytes.length = (n + 7) / 8
  bytes : ∀ i, (b.asBytes.getD (i / 8) 0).toBitVec.getLsbD (i % 8) = b.get i
  parsed : BitMap.fromBytes b.asBytes n = .ok b

/-- **A bitmap is a finite set of shards, and its packed bytes are a canonical form of it**: what was made
of empty and parsed bitmaps by `set` and `or_merge` is faithful; `set` adds its element if that is in
range; `or_merge` is union on bitmaps of one size and refuses others; `from_bytes` takes the byte strings
of the one length, and their bits from `n` on are what is lost of them. -/
theorem made_faithful (n : Nat) :
    (∀ b, Made n b → Faithful n b)
    ∧ (∀ b idx, Made n b → if idx < n then ∃ b', b.set idx = .ok b' ∧ Made n b'
          ∧ ∀ i, b'.get i ↔ b.get i ∨ i = idx
        else b.set idx = .error (.outOfRange idx n))
    ∧ (∀ b n' other, Made n b → Made n' other → if n = n' then ∃ b', b.orMerge other = .ok b' ∧ Made n b'
          ∧ ∀ i, b'.get i ↔ b.get i ∨ other.get i
        else b.orMerge other = .error (.sizeMismatch n n'))
    ∧ ∀ s : Bytes, if s.length = (n + 7) / 8 then ∃ b, fromBytes s n = .ok b
          ∧ b.asBytes.length = s.length
          ∧ ∀ i, (b.asBytes.getD (i / 8) 0).toBitVec.getLsbD (i % 8)
            = (decide (i < n) && (s.getD (i / 8) 0).toBitVec.getLsbD (i % 8))
        else fromBytes s n = .error (.invalidByteLength s.length ((n + 7) / 8)) := by
  -- every construction keeps the tail clear, and a clear tail is what each part needs
  refine ⟨fun b hb => ?_, fun b idx hb => ?_, fun b n' other hb hother => ?_, fun s => ?_⟩
  · obtain ⟨rfl, hclean⟩ := hb.clean
    exact
      { n_eq := rfl
        limbs := hclean
        out_of_range := fun i hi => get_of_le hi
        count := hclean.countOnes_eq
        length_bytes := b.length_asBytes
        bytes := fun i => (bitOf_eq ..).symm.trans (hclean.bitOf_asBytes i)
        parsed := hclean.fromBytes_asBytes }
  · obtain ⟨rfl, -⟩ := hb.clean
    split
    case isTrue hidx =>
      obtain ⟨b', hset, -, -⟩ := set_ok hidx
      refine ⟨b', hset, hb.set hset, fun i => ?_⟩
      rw [get_set hset, Bool.or_eq_true, decide_eq_true_iff]
    case isFalse hidx => exact if_pos (Nat.le_of_not_lt hidx)
  · obtain ⟨rfl, -⟩ := hb.clean
    obtain ⟨rfl, -⟩ := hother.clean
    split
    case isTrue hn =>
      obtain ⟨b', hmerge, -, -⟩ := orMerge_ok hn
      refine ⟨b', hmerge, hb.orMerge hother hmerge, fun i => ?_⟩
      rw [get_orMerge hmerge, Bool.or_eq_true]
    case isFalse hn => exact dif_pos hn
  · split
    case isTrue hlen =>
      obtain ⟨b, hok, hn, -⟩ := fromBytes_ok (n := n) hlen
      refine ⟨b, hok, ?_, fun i => ?_⟩
      · rw [length_asBytes, hn]
        exact hlen.symm
      · rw [← bitOf_eq, ← bitOf_eq]
        exact bitOf_asBytes_fromBytes hok i
    case isFalse hlen => exact fromBytes_of_length_ne hlen

/-- Ten bits from two bytes, the second with bits past the end. -/
theorem made_faithful_ten :
    ∃ b, fromBytes [9, 254] 10 = .ok b ∧ Faithful 10 b ∧ b.asBytes = [9, 2] := by
  obtain ⟨b, hok, -, -⟩ := fromBytes_ok (s := [9, 254]) (n := 10) rfl
  have hbytes : ((fromBytes [9, 254] 10).map asBytes).toOption = some [9, 2] := by decide +kernel
  rw [hok] at hbytes
  exact ⟨b, hok, (made_faithful 10).1 b (.fromBytes hok), Option.some.inj hbytes⟩

end BitMap

end Ethp2p
