/-
# Ethp2p.Lib.BitBlocks — the bits of a list of words.

A list of `w`-bit words is read as one sequence of bits, lowest bit of the first word first; past the
end it is zero.  `bitAt` is that sequence, and the lemmas below say what the list operations do to it.
Two lists of the same length with the same bits are the same list (`ext_bitAt`), so an encoding in
words of one width and another in words of another width can be compared bit by bit.
-/
import Mathlib

namespace Ethp2p

namespace BitBlocks

variable {w : Nat}

/-- Bit `i` of a list of words. -/
def bitAt (l : List (BitVec w)) (i : Nat) : Bool := (l.getD (i / w) 0).getLsbD (i % w)

/-- Number of set bits of a word. -/
def ones (x : BitVec w) : Nat := (List.range w).countP (x.getLsbD ·)

theorem bitAt_mul_add (l : List (BitVec w)) (q : Nat) {r : Nat} (hr : r < w) :
    bitAt l (q * w + r) = (l.getD q 0).getLsbD r := by
  have hw : 0 < w := Nat.zero_lt_of_lt hr
  have hdiv : (q * w + r) / w = q := by
    rw [Nat.add_comm, Nat.add_mul_div_right r q hw, Nat.div_eq_of_lt hr, Nat.zero_add]
  have hmod : (q * w + r) % w = r := by
    rw [Nat.mul_comm, Nat.mul_add_mod, Nat.mod_eq_of_lt hr]
  rw [bitAt, hdiv, hmod]

theorem bitAt_of_le {l : List (BitVec w)} {i : Nat} (h : l.length * w ≤ i) : bitAt l i = false := by
  rcases Nat.eq_zero_or_pos w with rfl | hw
  · exact BitVec.getLsbD_of_ge _ _ (Nat.zero_le _)
  · have hq : l.length ≤ i / w := (Nat.le_div_iff_mul_le hw).mpr h
    rw [bitAt, List.getD_eq_default _ _ hq]
    exact BitVec.getLsbD_zero

/-- **Lists of words with the same bits are the same.** -/
theorem ext_bitAt {l l' : List (BitVec w)} (hlen : l.length = l'.length)
    (h : ∀ i, bitAt l i = bitAt l' i) : l = l' := by
  refine List.ext_getElem hlen fun q hq hq' => BitVec.eq_of_getLsbD_eq fun r hr => ?_
  have hbit := h (q * w + r)
  rw [bitAt_mul_add l q hr, bitAt_mul_add l' q hr, List.getD_eq_getElem _ _ hq,
    List.getD_eq_getElem _ _ hq'] at hbit
  exact hbit

theorem bitAt_cons_lt (x : BitVec w) (l : List (BitVec w)) {i : Nat} (h : i < w) :
    bitAt (x :: l) i = x.getLsbD i := by
  rw [bitAt, Nat.div_eq_of_lt h, Nat.mod_eq_of_lt h]
  rfl

theorem bitAt_cons_add (hw : 0 < w) (x : BitVec w) (l : List (BitVec w)) (i : Nat) :
    bitAt (x :: l) (w + i) = bitAt l i := by
  have hdiv : (w + i) / w = i / w + 1 := by rw [Nat.add_comm, Nat.add_div_right i hw]
  rw [bitAt, hdiv, Nat.add_mod_left]
  rfl

theorem bitAt_append (hw : 0 < w) (l l' : List (BitVec w)) (i : Nat) :
    bitAt (l ++ l') i = if i < l.length * w then bitAt l i else bitAt l' (i - l.length * w) := by
  induction l generalizing i with
  | nil => simp
  | cons x l ih =>
    rcases Nat.lt_or_ge i w with h | h
    · have hin : i < (x :: l).length * w := by
        rw [List.length_cons, Nat.succ_mul]
        omega
      rw [if_pos hin, List.cons_append, bitAt_cons_lt x _ h, bitAt_cons_lt x l h]
    · obtain ⟨j, rfl⟩ := Nat.exists_eq_add_of_le h
      have hlen : (x :: l).length * w = l.length * w + w := by rw [List.length_cons, Nat.succ_mul]
      rw [List.cons_append, bitAt_cons_add hw, ih, bitAt_cons_add hw, hlen]
      by_cases hj : j < l.length * w
      · rw [if_pos hj, if_pos (by omega)]
      · rw [if_neg hj, if_neg (by omega)]
        congr 1
        omega

theorem bitAt_take (l : List (BitVec w)) (k i : Nat) :
    bitAt (l.take k) i = (decide (i < k * w) && bitAt l i) := by
  rcases Nat.eq_zero_or_pos w with rfl | hw
  · rw [bitAt_of_le (Nat.zero_le i), Nat.mul_zero]
    rfl
  · have hlt : i / w < k ↔ i < k * w := Nat.div_lt_iff_lt_mul hw
    rw [bitAt, bitAt, List.getD_eq_getElem?_getD, List.getD_eq_getElem?_getD, List.getElem?_take]
    by_cases h : i / w < k
    · simp [h, hlt.mp h]
    · simp [h, hlt.not.mp h]

theorem bitAt_drop (hw : 0 < w) (l : List (BitVec w)) (k i : Nat) :
    bitAt (l.drop k) i = bitAt l (k * w + i) := by
  have hdiv : (k * w + i) / w = k + i / w := by
    rw [Nat.add_comm, Nat.add_mul_div_right i k hw, Nat.add_comm]
  have hmod : (k * w + i) % w = i % w := by rw [Nat.mul_comm, Nat.mul_add_mod]
  rw [bitAt, bitAt, hdiv, hmod, List.getD_eq_getElem?_getD, List.getD_eq_getElem?_getD,
    List.getElem?_drop]

theorem bitAt_modify (l : List (BitVec w)) (q : Nat) (f : BitVec w → BitVec w) (i : Nat) :
    bitAt (l.modify q f) i
      = if q = i / w ∧ q < l.length then (f (l.getD q 0)).getLsbD (i % w) else bitAt l i := by
  rw [bitAt, bitAt, List.getD_eq_getElem?_getD, List.getD_eq_getElem?_getD, List.getD_eq_getElem?_getD,
    List.getElem?_modify]
  by_cases hq : q = i / w
  · subst hq
    rcases Nat.lt_or_ge (i / w) l.length with h | h
    · simp [h]
    · simp [Nat.not_lt.mpr h]
  · simp [hq]

theorem bitAt_zipWith_or {l l' : List (BitVec w)} (h : l.length = l'.length) (i : Nat) :
    bitAt (List.zipWith (· ||| ·) l l') i = (bitAt l i || bitAt l' i) := by
  rw [bitAt, bitAt, bitAt, List.getD_eq_getElem?_getD, List.getD_eq_getElem?_getD,
    List.getD_eq_getElem?_getD, List.getElem?_zipWith]
  rcases Nat.lt_or_ge (i / w) l.length with hq | hq
  · rw [List.getElem?_eq_getElem hq, List.getElem?_eq_getElem (h ▸ hq)]
    exact BitVec.getLsbD_or
  · rw [List.getElem?_eq_none hq, List.getElem?_eq_none (h ▸ hq)]
    exact (BitVec.getLsbD_zero (w := w)).trans (by simp)

theorem bitAt_replicate_zero (k i : Nat) : bitAt (List.replicate k (0 : BitVec w)) i = false := by
  rw [bitAt, List.getD_eq_getElem?_getD, List.getElem?_replicate]
  split <;> exact BitVec.getLsbD_zero

/-- The set bits of the words are those of the sequence. -/
theorem sum_ones (hw : 0 < w) (l : List (BitVec w)) :
    (l.map ones).sum = (List.range (l.length * w)).countP (bitAt l) := by
  induction l with
  | nil => simp
  | cons x l ih =>
    have hlen : (x :: l).length * w = w + l.length * w := by
      rw [List.length_cons, Nat.succ_mul, Nat.add_comm]
    have hfirst : (List.range w).countP (bitAt (x :: l)) = ones x :=
      List.countP_congr fun i hi => by rw [bitAt_cons_lt x l (List.mem_range.mp hi)]
    rw [hlen, List.range_add, List.countP_append, hfirst, List.countP_map, List.map_cons, List.sum_cons, ih]
    congr 1
    exact List.countP_congr fun i _ => by rw [Function.comp_apply, bitAt_cons_add hw]

end BitBlocks

end Ethp2p
