/-
# Ethp2p.Lib.BTree — ordered maps and sets with an extensional, sorted carrier.

`BTreeMap K V` and `BTreeSet K` are `Std.ExtTreeMap` / `Std.ExtTreeSet` at the key type's own
`compare`: two maps with the same entries are EQUAL, and `toList` / `keys` list the entries in key
order, which is the iteration order of Rust's `BTreeMap` and `BTreeSet`.  Pairs are ordered
lexicographically.

What `Std` already states (lookup after `insert`, `erase`, `alter`, `filter`, `map`) is used from
there; this file only adds the reading rules in terms of `=` instead of `compare _ _ = .eq`, and the
size bound of a set over a finite key type.
-/
import Mathlib

attribute [instance] lexOrd

namespace Ethp2p

open Std

/-- An ordered map, the model of Rust's `BTreeMap`. -/
abbrev BTreeMap (K V : Type) [Ord K] := ExtTreeMap K V compare

/-- An ordered set, the model of Rust's `BTreeSet`. -/
abbrev BTreeSet (K : Type) [Ord K] := ExtTreeSet K compare

variable {K V : Type} [Ord K] [TransOrd K] [LawfulEqOrd K]

/-! ## Lookups, with keys compared by `=` -/

namespace BTreeMap

theorem get_insert [DecidableEq K] (m : BTreeMap K V) (k a : K) (v : V) :
    (m.insert k v)[a]? = if k = a then some v else m[a]? := by
  simp [ExtTreeMap.getElem?_insert]

theorem get_erase [DecidableEq K] (m : BTreeMap K V) (k a : K) :
    (m.erase k)[a]? = if k = a then none else m[a]? := by
  simp [ExtTreeMap.getElem?_erase]

theorem get_alter [DecidableEq K] (m : BTreeMap K V) (k a : K) (f : Option V → Option V) :
    (m.alter k f)[a]? = if k = a then f m[k]? else m[a]? := by
  simp [ExtTreeMap.getElem?_alter]

theorem get_modify [DecidableEq K] (m : BTreeMap K V) (k a : K) (f : V → V) :
    (m.modify k f)[a]? = if k = a then m[k]?.map f else m[a]? := by
  simp [ExtTreeMap.getElem?_modify]

omit [LawfulEqOrd K] in
theorem mem_iff_get (m : BTreeMap K V) (k : K) : k ∈ m ↔ ∃ v, m[k]? = some v := by
  rw [ExtTreeMap.mem_iff_isSome_getElem?, Option.isSome_iff_exists]

omit [LawfulEqOrd K] in
theorem not_mem_of_get {m : BTreeMap K V} {k : K} (h : m[k]? = none) : k ∉ m := by
  rw [ExtTreeMap.mem_iff_isSome_getElem?, h]
  exact Bool.false_ne_true

/-- A map that is filled from a list of keys. -/
theorem get_foldl_insert [DecidableEq K] (f : K → V) (keys : List K) (m : BTreeMap K V) (k : K) :
    (keys.foldl (fun m key => m.insert key (f key)) m)[k]? = if k ∈ keys then some (f k) else m[k]? := by
  induction keys generalizing m with
  | nil => simp
  | cons key keys ih =>
    rw [List.foldl_cons, ih, get_insert]
    by_cases hk : k ∈ keys
    · simp [hk]
    · by_cases hkey : key = k
      · simp [hkey]
      · simp [hk, hkey, Ne.symm hkey]

/-! ## Filtering -/

theorem get_filter (m : BTreeMap K V) (f : K → V → Bool) (k : K) :
    (m.filter f)[k]? = m[k]?.filter (f k) :=
  ExtTreeMap.getElem?_filter'

theorem filter_insert [DecidableEq K] (m : BTreeMap K V) (f : K → V → Bool) (k : K) (v : V) :
    (m.insert k v).filter f
      = if f k v then (m.filter f).insert k v else (m.filter f).erase k := by
  refine ExtTreeMap.ext_getElem? fun a => ?_
  rw [get_filter, get_insert]
  by_cases hk : k = a
  · subst hk
    cases hf : f k v <;> simp [hf]
  · cases hf : f k v <;> simp [hk, get_insert, get_erase]

theorem filter_erase [DecidableEq K] (m : BTreeMap K V) (f : K → V → Bool) (k : K) :
    (m.erase k).filter f = (m.filter f).erase k := by
  refine ExtTreeMap.ext_getElem? fun a => ?_
  rw [get_filter, get_erase, get_erase, get_filter]
  split <;> rfl

theorem mem_filter_iff (m : BTreeMap K V) (f : K → V → Bool) (k : K) :
    k ∈ m.filter f ↔ ∃ v, m[k]? = some v ∧ f k v := by
  rw [mem_iff_get, get_filter]
  simp only [Option.filter_eq_some_iff]

/-! ## Sizes -/

omit [LawfulEqOrd K] in
theorem size_insert_of_not_mem {m : BTreeMap K V} {k : K} (h : k ∉ m) (v : V) :
    (m.insert k v).size = m.size + 1 := by
  rw [ExtTreeMap.size_insert, if_neg (by simpa using h)]

omit [LawfulEqOrd K] in
theorem size_erase_of_not_mem {m : BTreeMap K V} {k : K} (h : k ∉ m) :
    (m.erase k).size = m.size := by
  rw [ExtTreeMap.size_erase, if_neg (by simpa using h)]

omit [LawfulEqOrd K] in
theorem size_erase_of_mem {m : BTreeMap K V} {k : K} (h : k ∈ m) :
    (m.erase k).size + 1 = m.size := by
  have hpos : m.size ≠ 0 := by
    intro h0
    rw [← ExtTreeMap.eq_empty_iff_size_eq_zero] at h0
    subst h0
    simp at h
  rw [ExtTreeMap.size_erase, if_pos (by simpa using h)]
  omega

/-- Over a finite key type the size counts the keys. -/
theorem size_eq_card [DecidableEq K] [Fintype K] (m : BTreeMap K V) :
    m.size = (Finset.univ.filter (· ∈ m)).card := by
  have hkeys : m.keys.toFinset = Finset.univ.filter (· ∈ m) := by
    ext k
    simp [ExtTreeMap.mem_keys]
  rw [← hkeys, List.toFinset_card_of_nodup ExtTreeMap.nodup_keys, ExtTreeMap.length_keys]

end BTreeMap

namespace BTreeSet

theorem mem_insert_iff (s : BTreeSet K) (k a : K) : a ∈ s.insert k ↔ k = a ∨ a ∈ s := by
  simp [ExtTreeSet.mem_insert]

theorem mem_erase_iff (s : BTreeSet K) (k a : K) : a ∈ s.erase k ↔ k ≠ a ∧ a ∈ s := by
  simp [ExtTreeSet.mem_erase]

theorem nodup_toList (s : BTreeSet K) : s.toList.Nodup := by
  refine s.distinct_toList.imp ?_
  intro a b h hab
  exact h (by simp [hab])

/-- A set over a finite key type has no more elements than the type. -/
theorem length_toList_le_card [Fintype K] (s : BTreeSet K) : s.toList.length ≤ Fintype.card K :=
  s.nodup_toList.length_le_card

end BTreeSet

end Ethp2p
