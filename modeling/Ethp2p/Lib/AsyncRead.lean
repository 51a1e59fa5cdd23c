/-
# Ethp2p.Lib.AsyncRead — readers that are polled for bytes.

A reader answers a poll with some bytes that fit the buffer, with none at the end of its stream, with an
error, or not yet.  Only finitely many polls come before an end or an error: `left` is a bound that every
other poll lowers, and the loops over a reader recurse on it.

What is read must not depend on how the stream is cut into polls.  A LAWFUL reader has bytes to give
(`content`) and a way to end (`ending`), and polls take the one from the front and then show the other.
That is a law about buffers with room.  A buffer without any is filled by no bytes, so a poll with one may
be answered `ready` anywhere in the stream, and readers differ in whether they do; `LawfulEmptyRead` asks only
that such a poll takes nothing.
A reading `Follows` a parser of byte strings if it takes from every lawful reader what the parser takes of
the bytes; `Took.bind` puts readings together as parsers are, so a protocol that is read in pieces is
understood by its parser alone.
-/
import Mathlib.Tactic

namespace Ethp2p

/-- A poll's answer. -/
inductive Poll (α : Type) where
  | pending
  | ready (value : α)
deriving DecidableEq, Repr

/-- The poll neither ended the stream nor failed. -/
def Poll.GoesOn {ε : Type} : Poll (Except ε (List UInt8)) → Prop
  | .pending => True
  | .ready (.ok data) => data ≠ []
  | .ready (.error _) => False

/-- The bytes that a poll puts into its buffer. -/
def Poll.bytes {ε : Type} : Poll (Except ε (List UInt8)) → List UInt8
  | .ready (.ok data) => data
  | .ready (.error _) => []
  | .pending => []

/-- A reader that is polled for bytes. -/
class AsyncRead (ε : outParam Type) (R : Type) where
  /-- Poll with a buffer of some capacity. -/
  pollRead : R → Nat → Poll (Except ε (List UInt8)) × R
  /-- A bound on the polls before the stream ends. -/
  left : R → Nat
  left_lt : ∀ r capacity, (pollRead r capacity).1.GoesOn → left (pollRead r capacity).2 < left r

/-- What a poll may do with a reader that has `bytes` to give and then ends as `ending` says: its answer,
and what the reader has then. -/
inductive Polled {ε : Type} (capacity : Nat) (bytes : List UInt8) (ending : Except ε Unit) :
    Poll (Except ε (List UInt8)) → List UInt8 → Except ε Unit → Prop
  | pending : Polled capacity bytes ending .pending bytes ending
  | read {data rest} (hsome : data ≠ []) (hfits : data.length ≤ capacity) (hfront : bytes = data ++ rest) :
    Polled capacity bytes ending (.ready (.ok data)) rest ending
  | ended (hbytes : bytes = []) (hending : ending = .ok ()) :
    Polled capacity bytes ending (.ready (.ok [])) [] (.ok ())
  | failed {err} (hbytes : bytes = []) (hending : ending = .error err) :
    Polled capacity bytes ending (.ready (.error err)) [] (.error err)

namespace Polled

variable {ε : Type} {capacity : Nat} {bytes bytes' data : List UInt8} {ending ending' : Except ε Unit} {err : ε}

theorem of_pending (h : Polled capacity bytes ending .pending bytes' ending') :
    bytes' = bytes ∧ ending' = ending := by
  cases h
  exact ⟨rfl, rfl⟩

theorem of_data (h : Polled capacity bytes ending (.ready (.ok data)) bytes' ending') (hsome : data ≠ []) :
    data.length ≤ capacity ∧ bytes = data ++ bytes' ∧ ending' = ending := by
  cases h with
  | read _ hfits hfront => exact ⟨hfits, hfront, rfl⟩
  | ended => exact absurd rfl hsome

theorem of_nil (h : Polled capacity bytes ending (.ready (.ok [])) bytes' ending') :
    bytes = [] ∧ ending = .ok () ∧ bytes' = [] ∧ ending' = .ok () := by
  cases h with
  | read hsome => exact absurd rfl hsome
  | ended hbytes hending => exact ⟨hbytes, hending, rfl, rfl⟩

theorem of_error (h : Polled capacity bytes ending (.ready (.error err)) bytes' ending') :
    bytes = [] ∧ ending = .error err ∧ bytes' = [] ∧ ending' = .error err := by
  cases h with
  | failed hbytes hending => exact ⟨hbytes, hending, rfl, rfl⟩

end Polled

/-- A reader that has bytes to give and a way to end. -/
class LawfulAsyncRead (ε : outParam Type) (R : Type) extends AsyncRead ε R where
  content : R → List UInt8
  ending : R → Except ε Unit
  polled : ∀ r capacity, 0 < capacity → Polled capacity (content r) (ending r) (pollRead r capacity).1
    (content (pollRead r capacity).2) (ending (pollRead r capacity).2)

/-! ## Empty buffers -/

/-- The end is reached: a poll with room for a byte finds it. -/
def AtEnd {ε R : Type} [AsyncRead ε R] (r : R) : Prop :=
  ∃ capacity, 0 < capacity ∧ ¬ (AsyncRead.pollRead r capacity).1.GoesOn

/-- What a poll with an empty buffer may do: answer not yet, or at once, or with an error if the end is
reached.  It takes no bytes. -/
inductive PolledEmpty {ε : Type} (atEnd : Prop) (bytes : List UInt8) (ending : Except ε Unit) :
    Poll (Except ε (List UInt8)) → List UInt8 → Except ε Unit → Prop
  | pending : PolledEmpty atEnd bytes ending .pending bytes ending
  | ready : PolledEmpty atEnd bytes ending (.ready (.ok [])) bytes ending
  | failed {err} (hend : atEnd) : PolledEmpty atEnd bytes ending (.ready (.error err)) bytes ending

/-- A lawful reader, for buffers without room too. -/
class LawfulEmptyRead (ε : outParam Type) (R : Type) extends LawfulAsyncRead ε R where
  polled_empty : ∀ r, PolledEmpty (AtEnd r) (content r) (ending r) (pollRead r 0).1
    (content (pollRead r 0).2) (ending (pollRead r 0).2)

/-! ## Readings -/

/-- A computation on a reader; it may fail. -/
def Reading (ε R A : Type) := R → Except ε A × R

namespace Reading

variable {ε R A B : Type}

instance : Monad (Reading ε R) where
  pure a := fun r => (.ok a, r)
  bind m f := fun r =>
    match m r with
    | (.ok a, r) => f a r
    | (.error err, r) => (.error err, r)

instance : MonadExceptOf ε (Reading ε R) where
  throw err := fun r => (.error err, r)
  tryCatch m handle := fun r =>
    match m r with
    | (.ok a, r) => (.ok a, r)
    | (.error err, r) => handle err r

@[simp] theorem pure_apply (a : A) (r : R) : (pure a : Reading ε R A) r = (.ok a, r) := rfl

@[simp] theorem throw_apply (err : ε) (r : R) : (throw err : Reading ε R A) r = (.error err, r) := rfl

/-- A reading goes on after a part that succeeded. -/
theorem bind_of_ok {m : Reading ε R A} {f : A → Reading ε R B} {r r' : R} {a : A} (h : m r = (.ok a, r')) :
    (m >>= f) r = f a r' := by
  show (match m r with | (.ok a, r) => f a r | (.error err, r) => (.error err, r)) = _
  rw [h]

/-- A reading stops at a part that failed. -/
theorem bind_of_error {m : Reading ε R A} {f : A → Reading ε R B} {r r' : R} {err : ε}
    (h : m r = (.error err, r')) : (m >>= f) r = (.error err, r') := by
  show (match m r with | (.ok a, r) => f a r | (.error err, r) => (.error err, r)) = _
  rw [h]

/-- A reading that succeeded did so in both parts. -/
theorem bind_eq_ok {m : Reading ε R A} {f : A → Reading ε R B} {r r'' : R} {b : B}
    (h : (m >>= f) r = (.ok b, r'')) : ∃ a r', m r = (.ok a, r') ∧ f a r' = (.ok b, r'') := by
  match hm : m r with
  | (.ok a, r') =>
    rw [bind_of_ok hm] at h
    exact ⟨a, r', rfl, h⟩
  | (.error err, r') =>
    rw [bind_of_error hm] at h
    cases h

end Reading

/-! ## Reading loops -/

section Loops

variable {ε R : Type} [AsyncRead ε R] {eof err : ε} {n : Nat} {r r' : R} {data : List UInt8}

open AsyncRead

/-- Poll until `n` bytes are read. -/
def pollExact (eof : ε) (n : Nat) (r : R) : Except ε (List UInt8) × R :=
  if n = 0 then
    (.ok [], r)
  else
    match _h : pollRead r n with
    | (.pending, r') => pollExact eof n r'
    | (.ready (.error err), r') => (.error err, r')
    | (.ready (.ok []), r') => (.error eof, r')
    | (.ready (.ok (byte :: data)), r') =>
      match pollExact eof (n - (byte :: data).length) r' with
      | (.ok rest, r'') => (.ok (byte :: data ++ rest), r'')
      | (.error err, r'') => (.error err, r'')
termination_by left r
decreasing_by
  all_goals
    have hlt := left_lt r n
    rw [_h] at hlt
  · exact hlt trivial
  · exact hlt (List.cons_ne_nil byte data)

/-- Poll until the stream ends; the `t`-th poll has a buffer of `buffers t` bytes. -/
def pollToEnd (buffers : Nat → Nat) (t : Nat) (r : R) : Except ε (List UInt8) × R :=
  match _h : pollRead r (buffers t) with
  | (.pending, r') => pollToEnd buffers (t + 1) r'
  | (.ready (.error err), r') => (.error err, r')
  | (.ready (.ok []), r') => (.ok [], r')
  | (.ready (.ok (byte :: data)), r') =>
    match pollToEnd buffers (t + 1) r' with
    | (.ok rest, r'') => (.ok (byte :: data ++ rest), r'')
    | (.error err, r'') => (.error err, r'')
termination_by left r
decreasing_by
  all_goals
    have hlt := left_lt r (buffers t)
    rw [_h] at hlt
  · exact hlt trivial
  · exact hlt (List.cons_ne_nil byte data)

/-- Read exactly `n` bytes; `eof` if the stream ends before. -/
def readExact (eof : ε) (n : Nat) : Reading ε R (List UInt8) := pollExact eof n

/-- Read all bytes up to the end of the stream. -/
def readToEnd (buffers : Nat → Nat) : Reading ε R (List UInt8) := pollToEnd buffers 0

/-- Reading some bytes lowers the bound on the polls. -/
theorem left_of_pollExact (h : pollExact eof n r = (.ok data, r')) :
    left r' ≤ left r ∧ (0 < n → left r' < left r) := by
  fun_induction pollExact eof n r generalizing data r' with
  | case1 r =>
    obtain ⟨-, rfl⟩ := Prod.mk.inj h
    exact ⟨le_rfl, fun hn => absurd hn (lt_irrefl 0)⟩
  | case2 n r hn r₁ hpoll ih =>
    have hlt := left_lt r n
    rw [hpoll] at hlt
    have hle := (ih h).1.trans_lt (hlt trivial)
    exact ⟨hle.le, fun _ => hle⟩
  | case3 | case4 | case6 => cases h
  | case5 n r hn byte data₁ r₁ hpoll rest r₂ hrest ih =>
    obtain ⟨-, rfl⟩ := Prod.mk.inj h
    have hlt := left_lt r n
    rw [hpoll] at hlt
    have hle := (ih hrest).1.trans_lt (hlt (List.cons_ne_nil byte data₁))
    exact ⟨hle.le, fun _ => hle⟩

/-- What every poll leaves as it is, reading to the end does. -/
theorem pollToEnd_frame {β : Type} {f : R → β} (buffers : Nat → Nat)
    (hpoll : ∀ t r, f (pollRead r (buffers t)).2 = f r) (t : Nat) (r : R) :
    f (pollToEnd buffers t r).2 = f r := by
  fun_induction pollToEnd buffers t r with
  | case1 t r r' h ih => exact ih.trans (by rw [← hpoll t r, h])
  | case2 t r err r' h | case3 t r r' h => exact (congrArg (fun p => f p.2) h).symm.trans (hpoll t r)
  | case4 t r byte data r' h rest r'' hrest ih =>
    rw [hrest] at ih
    exact ih.trans (by rw [← hpoll t r, h])
  | case5 t r byte data r' h err r'' hrest ih =>
    rw [hrest] at ih
    exact ih.trans (by rw [← hpoll t r, h])

end Loops

/-! ## Lawful readers -/

section Lawful

variable {ε R : Type} [LawfulAsyncRead ε R] {eof : ε}

open AsyncRead LawfulAsyncRead

/-- The error a reader that has no more bytes ends with. -/
def endError (eof : ε) : Except ε Unit → ε
  | .ok () => eof
  | .error err => err

/-- What a poll did, by its answer. -/
theorem polled_of {capacity : Nat} (hcapacity : 0 < capacity) {r r' : R} {answer : Poll (Except ε (List UInt8))}
    (h : pollRead r capacity = (answer, r')) :
    Polled capacity (content r) (ending r) answer (content r') (ending r') := by
  have hpolled := polled r capacity hcapacity
  rwa [h] at hpolled

/-- At the end there are no bytes left. -/
theorem AtEnd.content_eq {r : R} (h : AtEnd r) : content r = [] := by
  obtain ⟨capacity, hcapacity, hends⟩ := h
  match hpoll : pollRead r capacity with
  | (.pending, r') =>
    rw [hpoll] at hends
    exact absurd trivial hends
  | (.ready (.error err), r') => exact (polled_of hcapacity hpoll).of_error.1
  | (.ready (.ok data), r') =>
    rw [hpoll] at hends
    obtain rfl : data = [] := not_not.mp hends
    exact (polled_of hcapacity hpoll).of_nil.1

/-- **Reading exactly `n` bytes** takes the first `n`, if there are so many. -/
theorem pollExact_of_le {n : Nat} {r : R} (h : n ≤ (content r).length) :
    ∃ r', pollExact eof n r = (.ok ((content r).take n), r') ∧ content r' = (content r).drop n
      ∧ ending r' = ending r := by
  fun_induction pollExact eof n r with
  | case1 r => exact ⟨r, by simp⟩
  | case2 n r hn r₁ hpoll ih =>
    obtain ⟨hcontent, hending⟩ := (polled_of (Nat.pos_of_ne_zero hn) hpoll).of_pending
    rw [hcontent, hending] at ih
    exact ih h
  -- a lawful reader neither fails nor ends while it has bytes to give
  | case3 n r hn err r₁ hpoll =>
    obtain ⟨hcontent, -⟩ := (polled_of (Nat.pos_of_ne_zero hn) hpoll).of_error
    rw [hcontent] at h
    exact absurd (Nat.le_zero.mp h) hn
  | case4 n r hn r₁ hpoll =>
    obtain ⟨hcontent, -⟩ := (polled_of (Nat.pos_of_ne_zero hn) hpoll).of_nil
    rw [hcontent] at h
    exact absurd (Nat.le_zero.mp h) hn
  -- this poll took the front, and the next ones what is behind it
  | case5 n r hn byte data r₁ hpoll rest r₂ hrest ih =>
    obtain ⟨hfits, hfront, hending⟩ :=
      (polled_of (Nat.pos_of_ne_zero hn) hpoll).of_data (List.cons_ne_nil byte data)
    rw [hfront, List.length_append] at h
    obtain ⟨r₂', hread, hcontent, hending'⟩ := ih (by omega)
    obtain ⟨hok, rfl⟩ := Prod.mk.inj (hrest.symm.trans hread)
    obtain rfl := Except.ok.inj hok
    refine ⟨r₂, ?_, ?_, hending'.trans hending⟩
    · rw [hfront, List.take_append, List.take_of_length_le hfits]
    · rw [hcontent, hfront, List.drop_append, List.drop_of_length_le hfits, List.nil_append]
  | case6 n r hn byte data r₁ hpoll err r₂ hrest ih =>
    obtain ⟨hfits, hfront, -⟩ :=
      (polled_of (Nat.pos_of_ne_zero hn) hpoll).of_data (List.cons_ne_nil byte data)
    rw [hfront, List.length_append] at h
    obtain ⟨r₂', hread, -⟩ := ih (by omega)
    cases hrest.symm.trans hread

/-- Reading exactly `n` bytes, as a reading. -/
theorem readExact_of_le {n : Nat} {r : R} (h : n ≤ (content r).length) :
    ∃ r', (readExact eof n : Reading ε R (List UInt8)) r = (.ok ((content r).take n), r')
      ∧ content r' = (content r).drop n ∧ ending r' = ending r :=
  pollExact_of_le h

/-- Reading more bytes than there are fails. -/
theorem pollExact_of_lt {n : Nat} {r : R} (h : (content r).length < n) :
    (pollExact eof n r).1 = .error (endError eof (ending r)) := by
  fun_induction pollExact eof n r with
  | case1 r => exact absurd h (Nat.not_lt_zero _)
  | case2 n r hn r₁ hpoll ih =>
    obtain ⟨hcontent, hending⟩ := (polled_of (Nat.pos_of_ne_zero hn) hpoll).of_pending
    rw [hcontent, hending] at ih
    exact ih h
  | case3 n r hn err r₁ hpoll =>
    obtain ⟨-, hending, -⟩ := (polled_of (Nat.pos_of_ne_zero hn) hpoll).of_error
    rw [hending, endError]
  | case4 n r hn r₁ hpoll =>
    obtain ⟨-, hending, -⟩ := (polled_of (Nat.pos_of_ne_zero hn) hpoll).of_nil
    rw [hending, endError]
  | case5 n r hn byte data r₁ hpoll rest r₂ hrest ih =>
    obtain ⟨-, hfront, -⟩ :=
      (polled_of (Nat.pos_of_ne_zero hn) hpoll).of_data (List.cons_ne_nil byte data)
    rw [hfront, List.length_append] at h
    rw [hrest] at ih
    cases ih (by omega)
  | case6 n r hn byte data r₁ hpoll err r₂ hrest ih =>
    obtain ⟨-, hfront, hending⟩ :=
      (polled_of (Nat.pos_of_ne_zero hn) hpoll).of_data (List.cons_ne_nil byte data)
    rw [hfront, List.length_append] at h
    rw [hrest, hending] at ih
    exact ih (by omega)

/-- **Reading to the end** takes all bytes, if the stream ends cleanly, and fails as the stream does. -/
theorem pollToEnd_spec {buffers : Nat → Nat} (hbuffers : ∀ t, 0 < buffers t) (t : Nat) (r : R) :
    (pollToEnd buffers t r).1 = (ending r).map (fun _ => content r)
      ∧ content (pollToEnd buffers t r).2 = [] ∧ ending (pollToEnd buffers t r).2 = ending r := by
  fun_induction pollToEnd buffers t r with
  -- one case for each answer of the poll: pending, an error, the end, data
  | case1 t r r₁ hpoll ih =>
    obtain ⟨hcontent, hending⟩ := (polled_of (hbuffers t) hpoll).of_pending
    rwa [hcontent, hending] at ih
  | case2 t r err r₁ hpoll =>
    obtain ⟨-, hending, hcontent', hending'⟩ := (polled_of (hbuffers t) hpoll).of_error
    rw [hending]
    exact ⟨rfl, hcontent', hending'⟩
  | case3 t r r₁ hpoll =>
    obtain ⟨hcontent, hending, hcontent', hending'⟩ := (polled_of (hbuffers t) hpoll).of_nil
    rw [hcontent, hending]
    exact ⟨rfl, hcontent', hending'⟩
  | case4 t r byte data r₁ hpoll rest r₂ hrest ih =>
    obtain ⟨-, hfront, hending⟩ := (polled_of (hbuffers t) hpoll).of_data (List.cons_ne_nil byte data)
    rw [hrest, hending] at ih
    obtain ⟨hread, hcontent', hending'⟩ := ih
    -- what this poll gave stands before what the rest of the polls give
    refine ⟨?_, hcontent', hending'⟩
    rw [hfront]
    cases hend : ending r with
    | ok =>
      rw [hend] at hread
      obtain rfl := Except.ok.inj hread
      rfl
    | error err =>
      rw [hend] at hread
      cases hread
  | case5 t r byte data r₁ hpoll err r₂ hrest ih =>
    obtain ⟨-, hfront, hending⟩ := (polled_of (hbuffers t) hpoll).of_data (List.cons_ne_nil byte data)
    rw [hrest, hending] at ih
    obtain ⟨hread, hcontent', hending'⟩ := ih
    refine ⟨?_, hcontent', hending'⟩
    cases hend : ending r with
    | ok =>
      rw [hend] at hread
      cases hread
    | error err' =>
      rw [hend] at hread
      exact hread

/-! ## Any buffers -/

section AnyBuffer

variable {R' : Type} [LawfulEmptyRead ε R'] {r : R'} {capacity : Nat} {err : ε}

/-- **A poll takes from the front** what it puts into the buffer, and that fits. -/
theorem content_pollRead (r : R') (capacity : Nat) :
    content r = (pollRead r capacity).1.bytes ++ content (pollRead r capacity).2
      ∧ (pollRead r capacity).1.bytes.length ≤ capacity := by
  rcases Nat.eq_zero_or_pos capacity with rfl | hcapacity
  · have hpolled := LawfulEmptyRead.polled_empty r
    generalize (pollRead r 0).1 = answer, content (pollRead r 0).2 = bytes',
      ending (pollRead r 0).2 = ending' at hpolled ⊢
    cases hpolled <;> exact ⟨rfl, Nat.le_refl 0⟩
  · have hpolled := polled r capacity hcapacity
    generalize (pollRead r capacity).1 = answer, content (pollRead r capacity).2 = bytes',
      ending (pollRead r capacity).2 = ending' at hpolled ⊢
    cases hpolled with
    | pending => exact ⟨rfl, Nat.zero_le _⟩
    | read _ hfits hfront => exact ⟨hfront, hfits⟩
    | ended hbytes => exact ⟨hbytes, Nat.zero_le _⟩
    | failed hbytes => exact ⟨hbytes, Nat.zero_le _⟩

/-- No bytes in a buffer with room mean the end. -/
theorem atEnd_of_nil (hcapacity : 0 < capacity) (h : (pollRead r capacity).1 = .ready (.ok [])) : AtEnd r := by
  refine ⟨capacity, hcapacity, ?_⟩
  rw [h]
  exact not_not.mpr rfl

/-- An error means the end, whatever the buffer. -/
theorem atEnd_of_error (h : (pollRead r capacity).1 = .ready (.error err)) : AtEnd r := by
  rcases Nat.eq_zero_or_pos capacity with rfl | hcapacity
  · have hpolled := LawfulEmptyRead.polled_empty r
    rw [h] at hpolled
    generalize content (pollRead r 0).2 = bytes', ending (pollRead r 0).2 = ending' at hpolled
    cases hpolled with
    | failed hend => exact hend
  · refine ⟨capacity, hcapacity, ?_⟩
    rw [h]
    exact id

end AnyBuffer

/-! ## Following a parser -/

/-- A reading did what a parser does: it took what the parser takes and left the rest on a stream that
still ends cleanly, or failed as the parser does. -/
inductive Took {A : Type} : Except ε A × R → Except ε (A × List UInt8) → Prop
  | ok {a : A} {r : R} (hending : ending r = .ok ()) : Took (.ok a, r) (.ok (a, content r))
  | error {err : ε} {r : R} : Took (.error err, r) (.error err)

/-- On a stream that ends cleanly, a reading does what a parser does on the stream's bytes. -/
def Follows {A : Type} (m : Reading ε R A) (parse : List UInt8 → Except ε (A × List UInt8)) : Prop :=
  ∀ r, ending r = .ok () → Took (m r) (parse (content r))

/-- What a reading read, its parser takes. -/
theorem Follows.of_ok {A : Type} {m : Reading ε R A} {parse : List UInt8 → Except ε (A × List UInt8)}
    (h : Follows m parse) {r r' : R} (hending : ending r = .ok ()) {a : A} (hread : m r = (.ok a, r')) :
    parse (content r) = .ok (a, content r') ∧ ending r' = .ok () := by
  have htook := h r hending
  rw [hread] at htook
  generalize parse (content r) = parsed at htook
  cases htook with
  | ok hending' => exact ⟨rfl, hending'⟩

/-- Where a reading fails, its parser does. -/
theorem Follows.of_error {A : Type} {m : Reading ε R A} {parse : List UInt8 → Except ε (A × List UInt8)}
    (h : Follows m parse) {r r' : R} (hending : ending r = .ok ()) {err : ε} (hread : m r = (.error err, r')) :
    parse (content r) = .error err := by
  have htook := h r hending
  rw [hread] at htook
  generalize parse (content r) = parsed at htook
  cases htook with
  | error => rfl

/-- What the parser takes of the bytes, the reading reads. -/
theorem Follows.reads {A : Type} {m : Reading ε R A} {parse : List UInt8 → Except ε (A × List UInt8)}
    (h : Follows m parse) {r : R} (hending : ending r = .ok ()) {a : A} {rest : List UInt8}
    (hparse : parse (content r) = .ok (a, rest)) :
    ∃ r', m r = (.ok a, r') ∧ content r' = rest ∧ ending r' = .ok () := by
  match hread : m r with
  | (.ok a', r') =>
    obtain ⟨hparse', hending'⟩ := h.of_ok hending hread
    obtain ⟨rfl, rfl⟩ := Prod.mk.inj (Except.ok.inj (hparse.symm.trans hparse'))
    exact ⟨r', rfl, rfl, hending'⟩
  | (.error err, r') => cases hparse.symm.trans (h.of_error hending hread)

/-- Take the first `n` bytes. -/
def takeExact (eof : ε) (n : Nat) (bytes : List UInt8) : Except ε (List UInt8 × List UInt8) :=
  if bytes.length < n then .error eof else .ok (bytes.take n, bytes.drop n)

theorem takeExact_append (eof : ε) (data bytes : List UInt8) :
    takeExact eof data.length (data ++ bytes) = .ok (data, bytes) := by
  rw [takeExact, if_neg (by rw [List.length_append]; omega), List.take_left, List.drop_left]

theorem takeExact_of_lt {n : Nat} {bytes : List UInt8} (h : bytes.length < n) (eof : ε) :
    takeExact eof n bytes = .error eof :=
  if_pos h

/-- What was taken is as long as it was asked for, and the front. -/
theorem takeExact_eq_ok {eof : ε} {n : Nat} {bytes data rest : List UInt8}
    (h : takeExact eof n bytes = .ok (data, rest)) : bytes = data ++ rest ∧ data.length = n := by
  unfold takeExact at h
  split at h
  case isTrue => cases h
  case isFalse hle =>
    obtain ⟨rfl, rfl⟩ := Prod.mk.inj (Except.ok.inj h)
    exact ⟨(List.take_append_drop n bytes).symm, List.length_take_of_le (Nat.le_of_not_lt hle)⟩

theorem takeExact_eq_error {eof err : ε} {n : Nat} {bytes : List UInt8}
    (h : takeExact eof n bytes = .error err) : bytes.length < n ∧ err = eof := by
  unfold takeExact at h
  split at h
  case isTrue hlt => exact ⟨hlt, (Except.error.inj h).symm⟩
  case isFalse => cases h

/-- Reading `n` bytes takes what `takeExact` does. -/
theorem follows_readExact (eof : ε) (n : Nat) :
    Follows (readExact eof n : Reading ε R (List UInt8)) (takeExact eof n) := by
  intro r hending
  unfold takeExact
  split
  case isTrue hlt =>
    have hfails : (pollExact eof n r).1 = .error (endError eof (ending r)) := pollExact_of_lt hlt
    rw [hending] at hfails
    show Took (pollExact eof n r) _
    rw [← Prod.eta (pollExact eof n r), hfails]
    exact .error
  case isFalse hle =>
    obtain ⟨r', hread, hcontent, hending'⟩ : ∃ r', pollExact eof n r = (.ok ((content r).take n), r')
        ∧ content r' = (content r).drop n ∧ ending r' = ending r := pollExact_of_le (Nat.le_of_not_lt hle)
    show Took (pollExact eof n r) _
    rw [hread, ← hcontent]
    exact .ok (hending'.trans hending)

/-- **Readings in a row.**  The second takes from what the first left; if the first fails, both do. -/
theorem Took.bind {A B : Type} {m : Reading ε R A} {f : A → Reading ε R B} {r : R}
    {parsed : Except ε (A × List UInt8)} {parsed' : Except ε (B × List UInt8)} (h : Took (m r) parsed)
    (hok : ∀ a r', ending r' = .ok () → parsed = .ok (a, content r') → Took (f a r') parsed')
    (herror : ∀ err, parsed = .error err → parsed' = .error err) : Took ((m >>= f) r) parsed' := by
  match hread : m r, h with
  | (_, r'), .ok hending' =>
    rw [Reading.bind_of_ok hread]
    exact hok _ r' hending' rfl
  | _, .error =>
    rw [Reading.bind_of_error hread, herror _ rfl]
    exact .error

end Lawful

end Ethp2p
