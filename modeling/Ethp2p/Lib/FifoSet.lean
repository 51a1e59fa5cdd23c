/-
# Ethp2p.Lib.FifoSet — the last keys that came.

A set that remembers the order in which its keys came and keeps at most `capacity` of them: a key that is
there is not moved, and a new one drives the oldest out of a full set.  So a key stays for as long as the
others do not fill the set behind it: `capacity_le_news` says that a key that went was followed by `capacity`
different new ones.
-/
import Mathlib.Tactic

namespace Ethp2p

/-- Distinct keys in the order they came, at most `capacity` of them. -/
structure FifoSet (α : Type) (capacity : Nat) where
  keys : List α
  nodup : keys.Nodup
  length_le : keys.length ≤ capacity

namespace FifoSet

variable {α : Type} {capacity : Nat} {s : FifoSet α capacity} {k j : α}

/-- No keys. -/
def empty : FifoSet α capacity := ⟨[], List.nodup_nil, Nat.zero_le capacity⟩

theorem nodup_append (hnew : k ∉ s.keys) : (s.keys ++ [k]).Nodup := by
  rw [← List.concat_eq_append]
  exact s.nodup.concat hnew

variable [DecidableEq α]

/-- A new key comes last, and the first ones go if there are too many. -/
def insert (s : FifoSet α capacity) (k : α) : FifoSet α capacity :=
  if hknown : k ∈ s.keys then
    s
  else {
    keys := (s.keys ++ [k]).drop ((s.keys ++ [k]).length - capacity)
    nodup := (nodup_append hknown).sublist (List.drop_sublist _ _)
    length_le := by
      rw [List.length_drop]
      omega }

/-- Insert one key after the other. -/
def insertAll (s : FifoSet α capacity) (ks : List α) : FifoSet α capacity := ks.foldl insert s

/-- The keys that were new when they were inserted. -/
def news (s : FifoSet α capacity) : List α → List α
  | [] => []
  | k :: ks => if k ∈ s.keys then news (s.insert k) ks else k :: news (s.insert k) ks

@[simp] theorem insert_of_mem (h : k ∈ s.keys) : s.insert k = s := dif_pos h

theorem keys_insert_of_not_mem (h : k ∉ s.keys) :
    (s.insert k).keys = (s.keys ++ [k]).drop ((s.keys ++ [k]).length - capacity) := by
  rw [insert, dif_neg h]

/-- A new key is the last one, if there is room for any. -/
theorem keys_insert_eq (hcapacity : 0 < capacity) (h : k ∉ s.keys) :
    ∃ older, (s.insert k).keys = older ++ [k] := by
  have hlen := s.length_le
  rw [keys_insert_of_not_mem h, List.length_append, List.length_singleton,
    List.drop_append_of_le_length (by omega)]
  exact ⟨_, rfl⟩

/-- The key that came last is there. -/
theorem mem_insert_self (hcapacity : 0 < capacity) (s : FifoSet α capacity) (k : α) :
    k ∈ (s.insert k).keys := by
  by_cases hknown : k ∈ s.keys
  · rwa [insert_of_mem hknown]
  · obtain ⟨older, hkeys⟩ := keys_insert_eq hcapacity hknown
    rw [hkeys]
    exact List.mem_append_right older List.mem_cons_self

/-- A key moves to the front when others come, and goes only when `capacity` keys are behind it. -/
theorem split_insert {older newer : List α} (h : s.keys = older ++ k :: newer) (j : α) :
    (∃ older', (s.insert j).keys = older' ++ k :: if j ∈ s.keys then newer else newer ++ [j])
    ∨ j ∉ s.keys ∧ capacity ≤ (newer ++ [j]).length := by
  by_cases hknown : j ∈ s.keys
  · rw [insert_of_mem hknown, if_pos hknown]
    exact .inl ⟨older, h⟩
  · rw [keys_insert_of_not_mem hknown, if_neg hknown, h, List.append_assoc, List.cons_append]
    set n := (older ++ k :: (newer ++ [j])).length - capacity with hn
    by_cases hstays : n ≤ older.length
    · exact .inl ⟨older.drop n, List.drop_append_of_le_length hstays⟩
    · right
      refine ⟨h ▸ hknown, ?_⟩
      simp only [List.length_append, List.length_cons, List.length_nil] at hn ⊢
      omega

/-- **What drove a key out**: that many other keys, all of them behind it. -/
theorem capacity_le_card {older newer : List α} (h : s.keys = older ++ k :: newer) (ks : List α)
    (hgone : k ∉ (s.insertAll ks).keys) :
    capacity ≤ ((newer ++ s.news ks).toFinset.erase k).card := by
  induction ks generalizing s older newer with
  | nil => exact absurd (h ▸ by simp) hgone
  | cons j ks ih =>
    have hnews : newer ++ s.news (j :: ks)
        = (if j ∈ s.keys then newer else newer ++ [j]) ++ (s.insert j).news ks := by
      rw [news]
      split
      case isTrue => rfl
      case isFalse => rw [List.append_assoc, List.singleton_append]
    rw [hnews]
    rcases split_insert h j with ⟨older', hstays⟩ | ⟨hnew, hfull⟩
    · exact ih hstays hgone
    · rw [if_neg hnew]
      -- the keys behind `k` are different from it and from each other
      have hnodup : (k :: (newer ++ [j])).Nodup := by
        have hall := nodup_append hnew
        rw [h, List.append_assoc, List.cons_append] at hall
        exact hall.of_append_right
      obtain ⟨hother, hnodup⟩ := List.nodup_cons.mp hnodup
      have hsub : (newer ++ [j]).toFinset
          ⊆ ((newer ++ [j]) ++ (s.insert j).news ks).toFinset.erase k := by
        intro i hi
        rw [List.mem_toFinset] at hi
        rw [Finset.mem_erase, List.mem_toFinset]
        exact ⟨fun heq => hother (heq ▸ hi), List.mem_append_left _ hi⟩
      calc capacity ≤ (newer ++ [j]).length := hfull
        _ = (newer ++ [j]).toFinset.card := (List.toFinset_card_of_nodup hnodup).symm
        _ ≤ _ := Finset.card_le_card hsub

/-- **A new key stays** until `capacity` different others have come as new after it. -/
theorem capacity_le_news (hnew : k ∉ s.keys) (ks : List α)
    (hgone : k ∉ ((s.insert k).insertAll ks).keys) :
    capacity ≤ (((s.insert k).news ks).toFinset.erase k).card := by
  rcases Nat.eq_zero_or_pos capacity with rfl | hcapacity
  · exact Nat.zero_le _
  · obtain ⟨older, hlast⟩ := keys_insert_eq hcapacity hnew
    exact capacity_le_card hlast ks hgone

end FifoSet

end Ethp2p
