/-
# Ethp2p.Lib.MinHeap — a min-heap kept as its sorted list of entries.

A binary heap is only observed through `push` and `pop`, and over a linear order equal entries are
identical, so the heap's contents in increasing order carry all there is to know: `pop` takes the
head.  The order is a FIELD of the structure, so an unsorted heap cannot be built.

`scan` is the loop "pop until an entry is taken": each popped entry is dropped for good, set aside,
or taken (which stops the loop).  `scan_*` say what the three outputs contain.
-/
import Mathlib

namespace Ethp2p

/-- What a pop loop does with the entry it popped. -/
inductive Sift where
  | drop
  | skip
  | take
deriving DecidableEq, Repr

/-! ## The pop loop on a list -/

section Scan

variable {α : Type}

/-- The pop loop over the sorted entries: the entry taken (if any), the entries set aside in pop
order, and the entries never popped. -/
def scanList (f : α → Sift) : List α → Option α × List α × List α
  | [] => (none, [], [])
  | a :: l =>
    match f a with
    | .drop => scanList f l
    | .skip => let r := scanList f l; (r.1, a :: r.2.1, r.2.2)
    | .take => (some a, [], l)

/-- What a scan has not looked at is the rest of the list. -/
theorem scanList_suffix (f : α → Sift) (l : List α) : (scanList f l).2.2 <:+ l := by
  induction l with
  | nil => exact List.suffix_rfl
  | cons a l ih =>
    simp only [scanList]
    cases f a with
    | drop => exact ih.trans (List.suffix_cons a l)
    | skip => exact ih.trans (List.suffix_cons a l)
    | take => exact List.suffix_cons a l

/-- The taken entry was in the list and the loop took it. -/
theorem scanList_taken {f : α → Sift} {l : List α} {a : α} (h : (scanList f l).1 = some a) :
    a ∈ l ∧ f a = .take := by
  induction l with
  | nil => simp [scanList] at h
  | cons b l ih =>
    cases hb : f b with
    | drop | skip =>
      simp only [scanList, hb] at h
      exact ⟨List.mem_cons_of_mem b (ih h).1, (ih h).2⟩
    | take =>
      simp only [scanList, hb, Option.some.injEq] at h
      subst h
      exact ⟨List.mem_cons_self, hb⟩

/-- A loop that took nothing popped everything: no entry was to be taken. -/
theorem scanList_none {f : α → Sift} {l : List α} (h : (scanList f l).1 = none) :
    ∀ a ∈ l, f a ≠ .take := by
  induction l with
  | nil => simp
  | cons b l ih =>
    cases hb : f b with
    | drop | skip =>
      simp only [scanList, hb] at h
      intro a ha
      rcases List.mem_cons.mp ha with rfl | ha
      · simp [hb]
      · exact ih h a ha
    | take => simp [scanList, hb] at h

/-- Every entry set aside was in the list and was marked so. -/
theorem scanList_skipped {f : α → Sift} {l : List α} {a : α} (h : a ∈ (scanList f l).2.1) :
    a ∈ l ∧ f a = .skip := by
  induction l with
  | nil => simp [scanList] at h
  | cons b l ih =>
    cases hb : f b with
    | drop =>
      simp only [scanList, hb] at h
      exact ⟨List.mem_cons_of_mem b (ih h).1, (ih h).2⟩
    | skip =>
      simp only [scanList, hb, List.mem_cons] at h
      rcases h with rfl | h
      · exact ⟨List.mem_cons_self, hb⟩
      · exact ⟨List.mem_cons_of_mem b (ih h).1, (ih h).2⟩
    | take => simp [scanList, hb] at h

/-- An entry that is not dropped is kept: taken, set aside, or never popped. -/
theorem scanList_keeps {f : α → Sift} {l : List α} {a : α} (ha : a ∈ l) (hf : f a ≠ .drop) :
    (scanList f l).1 = some a ∨ a ∈ (scanList f l).2.1 ∨ a ∈ (scanList f l).2.2 := by
  induction l with
  | nil => simp at ha
  | cons b l ih =>
    rcases List.mem_cons.mp ha with rfl | ha
    · cases hb : f a with
      | drop => exact absurd hb hf
      | skip => simp [scanList, hb]
      | take => simp [scanList, hb]
    · cases hb : f b with
      | drop => simpa [scanList, hb] using ih ha
      | skip =>
        simp only [scanList, hb, List.mem_cons]
        rcases ih ha with h | h | h
        · exact .inl h
        · exact .inr (.inl (.inr h))
        · exact .inr (.inr h)
      | take => simp [scanList, hb, ha]

/-- The loop makes no entry up: what it hands out and what it leaves were in the list, each as often. -/
theorem scanList_subperm (f : α → Sift) (l : List α) :
    ((scanList f l).1.toList ++ ((scanList f l).2.1 ++ (scanList f l).2.2)).Subperm l := by
  induction l with
  | nil => exact List.Subperm.refl _
  | cons a l ih =>
    cases ha : f a with
    | drop => simpa only [scanList, ha] using ih.cons_right a
    | skip =>
      simp only [scanList, ha, List.cons_append]
      exact List.perm_middle.subperm.trans ((List.subperm_cons a).mpr ih)
    | take => simp [scanList, ha, List.Subperm.refl]

/-- A part of a list without repetitions has none. -/
theorem nodup_of_subperm {l l' : List α} (h : l.Subperm l') (hl' : l'.Nodup) : l.Nodup := by
  obtain ⟨l₀, hperm, hsub⟩ := h
  exact hperm.nodup_iff.mp (hl'.sublist hsub)

/-- Over a sorted list, the taken entry is the least of those the loop would take. -/
theorem scanList_least [LinearOrder α] {f : α → Sift} {l : List α} (hl : l.Pairwise (· ≤ ·)) {a : α}
    (h : (scanList f l).1 = some a) : ∀ b ∈ l, f b = .take → a ≤ b := by
  induction l with
  | nil => simp [scanList] at h
  | cons c l ih =>
    obtain ⟨hfirst, hrest⟩ := List.pairwise_cons.mp hl
    cases hc : f c with
    | drop | skip =>
      simp only [scanList, hc] at h
      intro b hb htake
      rcases List.mem_cons.mp hb with rfl | hb
      · rw [hc] at htake
        cases htake
      · exact ih hrest h b hb htake
    | take =>
      simp only [scanList, hc, Option.some.injEq] at h
      subst h
      intro b hb _
      rcases List.mem_cons.mp hb with rfl | hb
      · exact le_rfl
      · exact hfirst b hb

/-- Over a sorted list, an entry beyond the taken one is never popped. -/
theorem scanList_beyond [LinearOrder α] {f : α → Sift} {l : List α} (hl : l.Pairwise (· ≤ ·)) {a b : α}
    (h : (scanList f l).1 = some a) (hb : b ∈ l) (hlt : a < b) : b ∈ (scanList f l).2.2 := by
  induction l with
  | nil => simp at hb
  | cons c l ih =>
    obtain ⟨hfirst, hrest⟩ := List.pairwise_cons.mp hl
    cases hc : f c with
    | drop | skip =>
      simp only [scanList, hc] at h ⊢
      rcases List.mem_cons.mp hb with rfl | hb
      · exact absurd (hfirst a (scanList_taken h).1) hlt.not_ge
      · exact ih hrest h hb
    | take =>
      simp only [scanList, hc, Option.some.injEq] at h ⊢
      subst h
      exact (List.mem_cons.mp hb).resolve_left hlt.ne'

end Scan

/-! ## The heap -/

/-- A min-heap: its entries in increasing order, duplicates allowed. -/
structure MinHeap (α : Type) [LinearOrder α] where
  entries : List α
  sorted : entries.Pairwise (· ≤ ·)
deriving DecidableEq

namespace MinHeap

variable {α : Type} [LinearOrder α]

/-- The empty heap. -/
def empty : MinHeap α := ⟨[], .nil⟩

/-- Add an entry. -/
def push (h : MinHeap α) (a : α) : MinHeap α :=
  ⟨h.entries.orderedInsert (· ≤ ·) a, List.Pairwise.orderedInsert a _ h.sorted⟩

/-- Add every entry of a list, front to back. -/
def pushAll (h : MinHeap α) : List α → MinHeap α
  | [] => h
  | a :: l => (h.push a).pushAll l

/-- Pop entries until one is taken; returns the taken entry, the skipped ones, and the heap left. -/
def scan (f : α → Sift) (h : MinHeap α) : Option α × List α × MinHeap α :=
  ((scanList f h.entries).1, (scanList f h.entries).2.1,
    ⟨(scanList f h.entries).2.2, h.sorted.sublist (scanList_suffix f h.entries).sublist⟩)

/-! ## Membership -/

instance : Membership α (MinHeap α) := ⟨fun h a => a ∈ h.entries⟩

theorem mem_def (h : MinHeap α) (a : α) : a ∈ h ↔ a ∈ h.entries := Iff.rfl

@[simp]
theorem not_mem_empty (a : α) : a ∉ (empty : MinHeap α) := by
  simp [mem_def, empty]

@[simp]
theorem mem_push (h : MinHeap α) (a b : α) : b ∈ h.push a ↔ b = a ∨ b ∈ h := by
  simp [mem_def, push, List.mem_orderedInsert]

/-- What is pushed back is in the heap again. -/
@[simp]
theorem mem_pushAll (h : MinHeap α) (l : List α) (b : α) : b ∈ h.pushAll l ↔ b ∈ l ∨ b ∈ h := by
  induction l generalizing h with
  | nil => simp [pushAll]
  | cons a l ih =>
    rw [pushAll, ih, mem_push, List.mem_cons]
    tauto

/-! ## Multiplicity -/

/-- A push adds one entry. -/
theorem perm_push (h : MinHeap α) (a : α) : (h.push a).entries.Perm (a :: h.entries) :=
  List.perm_orderedInsert (· ≤ ·) a h.entries

theorem perm_pushAll (h : MinHeap α) (l : List α) : (h.pushAll l).entries.Perm (l ++ h.entries) := by
  induction l generalizing h with
  | nil => exact List.Perm.refl _
  | cons a l ih => exact (ih (h.push a)).trans (((h.perm_push a).append_left l).trans List.perm_middle)

/-- A push repeats an entry only if it is there. -/
theorem nodup_push {h : MinHeap α} {a : α} :
    (h.push a).entries.Nodup ↔ a ∉ h ∧ h.entries.Nodup := by
  rw [(h.perm_push a).nodup_iff, List.nodup_cons, mem_def]

end MinHeap

end Ethp2p
