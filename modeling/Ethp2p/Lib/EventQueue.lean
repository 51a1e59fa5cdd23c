/-
# Ethp2p.Lib.EventQueue — a discrete-event queue.

Events are due at a time and numbered in the order they were scheduled; the queue hands out the event
that is due first, ties broken by the number.  It is kept as its list of events in that order, with the
order as a FIELD, so that `pop` takes the head.

What a simulator needs to know of it is in what order SOME of the events come out.  `filter_push_last`
is the rule for that: an event scheduled after all others of its kind, and not due before any of them,
comes out after them.
-/
import Mathlib.Data.List.Sort

namespace Ethp2p

/-- A scheduled event. -/
structure Event (α : Type) where
  due : Nat
  seq : Nat
  pending : α
deriving DecidableEq, Repr

namespace Event

variable {α : Type}

/-- The event is handed out no later than the other. -/
def Before (a b : Event α) : Prop := a.due < b.due ∨ a.due = b.due ∧ a.seq ≤ b.seq

instance : DecidableRel (@Before α) := fun a b =>
  inferInstanceAs (Decidable (a.due < b.due ∨ a.due = b.due ∧ a.seq ≤ b.seq))

instance : IsTrans (Event α) Before where
  trans a b c hab hbc := by
    unfold Before at *
    omega

instance : Std.Total (@Before α) where
  total a b := by
    unfold Before
    omega

theorem Before.due_le {a b : Event α} (h : a.Before b) : a.due ≤ b.due := by
  unfold Before at h
  omega

end Event

/-- A queue of events, in the order they are handed out. -/
structure EventQueue (α : Type) where
  entries : List (Event α)
  sorted : entries.Pairwise Event.Before

namespace EventQueue

variable {α : Type}

/-- The empty queue. -/
def empty : EventQueue α := ⟨[], .nil⟩

/-- Schedule an event. -/
def push (q : EventQueue α) (e : Event α) : EventQueue α :=
  ⟨q.entries.orderedInsert Event.Before e, .orderedInsert e _ q.sorted⟩

/-- Take the first event out. -/
def pop (q : EventQueue α) : Option (Event α × EventQueue α) :=
  match q with
  | ⟨[], _⟩ => none
  | ⟨e :: entries, sorted⟩ => some (e, ⟨entries, (List.pairwise_cons.mp sorted).2⟩)

/-- The number of events in the queue. -/
def size (q : EventQueue α) : Nat := q.entries.length

variable {q q' : EventQueue α} {e x : Event α} {P : Event α → Bool}

@[simp]
theorem entries_empty : (empty : EventQueue α).entries = [] := rfl

@[simp]
theorem mem_push : x ∈ (q.push e).entries ↔ x = e ∨ x ∈ q.entries := by
  simp [push, List.mem_orderedInsert]

@[simp]
theorem size_push : (q.push e).size = q.size + 1 := by
  simp [push, size, List.orderedInsert_length]

theorem pop_eq_none : q.pop = none ↔ q.entries = [] := by
  obtain ⟨entries, sorted⟩ := q
  cases entries <;> simp [pop]

theorem pop_entries (h : q.pop = some (e, q')) : q.entries = e :: q'.entries := by
  obtain ⟨entries, sorted⟩ := q
  cases entries with
  | nil => simp [pop] at h
  | cons a entries =>
    obtain ⟨rfl, rfl⟩ := Prod.mk.inj (Option.some.inj h)
    rfl

/-- Every event still in the queue is due no earlier than the one taken out. -/
theorem pop_due_le (h : q.pop = some (e, q')) (hx : x ∈ q'.entries) : e.due ≤ x.due := by
  have hsorted := q.sorted
  rw [pop_entries h, List.pairwise_cons] at hsorted
  exact (hsorted.1 x hx).due_le

theorem size_pop (h : q.pop = some (e, q')) : q.size = q'.size + 1 := by
  rw [size, pop_entries h]
  rfl

/-- An event of another kind does not show among the events of a kind. -/
theorem filter_push_of_neg (hneg : P e = false) :
    (q.push e).entries.filter P = q.entries.filter P := by
  have hinsert : ∀ l : List (Event α),
      (l.orderedInsert Event.Before e).filter P = l.filter P := by
    intro l
    induction l with
    | nil => simp [hneg]
    | cons b l ih =>
      rw [List.orderedInsert_cons]
      split
      · simp [hneg]
      · rw [List.filter_cons, List.filter_cons, ih]
  exact hinsert q.entries

/-- **An event that comes after all others of its kind comes out after them.** -/
theorem filter_push_last (hpos : P e = true)
    (hlast : ∀ x ∈ q.entries, P x → ¬ e.Before x) :
    (q.push e).entries.filter P = q.entries.filter P ++ [e] := by
  have hinsert : ∀ l : List (Event α), l.Pairwise Event.Before →
      (∀ x ∈ l, P x → ¬ e.Before x) →
      (l.orderedInsert Event.Before e).filter P = l.filter P ++ [e] := by
    intro l
    induction l with
    | nil => simp [hpos]
    | cons b l ih =>
      intro hsorted hlast
      obtain ⟨hb, hl⟩ := List.pairwise_cons.mp hsorted
      rw [List.orderedInsert_cons]
      split
      case isTrue hbefore =>
        -- everything from `b` on comes after `e`, so none of it is of the kind
        have hnone : (b :: l).filter P = [] := by
          rw [List.filter_eq_nil_iff]
          intro x hx hPx
          refine hlast x hx hPx ?_
          rcases List.mem_cons.mp hx with rfl | hx
          · exact hbefore
          · exact IsTrans.trans _ _ _ hbefore (hb x hx)
        rw [List.filter_cons_of_pos hpos, hnone, List.nil_append]
      case isFalse =>
        rw [List.filter_cons, List.filter_cons,
          ih hl fun x hx => hlast x (List.mem_cons_of_mem b hx)]
        split <;> rfl
  exact hinsert q.entries q.sorted hlast

end EventQueue

end Ethp2p
