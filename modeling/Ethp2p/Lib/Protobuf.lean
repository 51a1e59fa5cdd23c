/-
# Ethp2p.Lib.Protobuf — the proto3 wire format, as far as varint and length-delimited fields go.

A message is a list of numbered fields, each a varint or a string of bytes.  `fields` writes such a list,
`parse` reads it back (`parse_fields`), and the length of what is written is the sum over the fields
(`length_field_le`).

Proto3 leaves a field out if it has its default value (`uint`, `string`), writes every entry of a repeated
field (`repeated`) and a present submessage even if it is empty (`submessage`).  A reader takes the last
value of a field, or the default (`lastUint`, `lastString`), and all entries of a repeated one
(`allStrings`); it refuses a value of the wrong kind and skips fields it does not know.  `values_*` say
which values of a field number a written message has; a message type's round trip is `parse_fields` and
these by `simp`.
-/
import Mathlib.Tactic

namespace Ethp2p.Protobuf

/-! ## Varints -/

/-- Write a number in groups of seven bits, low group first; `fuel` bounds the groups after the first. -/
def writeVarint : Nat → Nat → List UInt8
  | 0, n => [.ofNat n]
  | fuel + 1, n => if n < 128 then [.ofNat n] else .ofNat (n % 128 + 128) :: writeVarint fuel (n / 128)

/-- The varint of a number. -/
def varint (n : Nat) : List UInt8 := writeVarint n.log2 n

/-- Read a varint; the number and what follows it. -/
def readVarint : List UInt8 → Option (Nat × List UInt8)
  | [] => none
  | b :: bytes =>
    if b.toNat < 128 then some (b.toNat, bytes)
    else (readVarint bytes).map fun (n, rest) => (n * 128 + (b.toNat - 128), rest)

theorem toNat_ofNat_of_lt {n : Nat} (h : n < 256) : (UInt8.ofNat n).toNat = n := by
  rw [UInt8.toNat_ofNat', Nat.mod_eq_of_lt h]

/-- **A varint is read back**, and what follows it is left. -/
theorem readVarint_writeVarint {fuel n : Nat} (h : n < 128 ^ (fuel + 1)) (rest : List UInt8) :
    readVarint (writeVarint fuel n ++ rest) = some (n, rest) := by
  induction fuel generalizing n with
  | zero =>
    have hn : n < 128 := by simpa using h
    have hbyte := toNat_ofNat_of_lt (show n < 256 by omega)
    simp [writeVarint, readVarint, hbyte, hn]
  | succ fuel ih =>
    unfold writeVarint
    split
    case isTrue hn =>
      have hbyte := toNat_ofNat_of_lt (show n < 256 by omega)
      simp [readVarint, hbyte, hn]
    case isFalse hn =>
      have hbyte := toNat_ofNat_of_lt (show n % 128 + 128 < 256 by omega)
      have hdiv : n / 128 < 128 ^ (fuel + 1) := by
        rw [Nat.div_lt_iff_lt_mul (by decide)]
        exact h
      rw [List.cons_append, readVarint, hbyte, if_neg (by omega), ih hdiv, Option.map_some]
      have hsplit : n / 128 * 128 + (n % 128 + 128 - 128) = n := by omega
      exact congrArg (fun n => some (n, rest)) hsplit

/-- Fuel for any number. -/
theorem lt_pow_log2 (n : Nat) : n < 128 ^ (n.log2 + 1) :=
  calc n < 2 ^ (n.log2 + 1) := Nat.lt_log2_self
    _ ≤ 128 ^ (n.log2 + 1) := Nat.pow_le_pow_left (by decide) _

/-- **A varint is read back**, whatever follows it. -/
theorem readVarint_varint (n : Nat) (rest : List UInt8) :
    readVarint (varint n ++ rest) = some (n, rest) :=
  readVarint_writeVarint (lt_pow_log2 n) rest

/-- A number below `128 ^ k` takes `k` bytes at most. -/
theorem length_writeVarint_le {fuel k n : Nat} (h : n < 128 ^ (k + 1)) :
    (writeVarint fuel n).length ≤ k + 1 := by
  induction fuel generalizing k n with
  | zero => simp [writeVarint]
  | succ fuel ih =>
    unfold writeVarint
    split
    case isTrue => simp
    case isFalse hn =>
      cases k with
      | zero => exact absurd (by simpa using h) hn
      | succ k =>
        have hdiv : n / 128 < 128 ^ (k + 1) := by
          rw [Nat.div_lt_iff_lt_mul (by decide)]
          exact h
        exact Nat.succ_le_succ (ih hdiv)

/-- A number below `128 ^ k` takes at most `k` bytes. -/
theorem length_varint_le {k n : Nat} (h : n < 128 ^ (k + 1)) : (varint n).length ≤ k + 1 :=
  length_writeVarint_le h

theorem varint_ne_nil (n : Nat) : varint n ≠ [] := by
  unfold varint
  cases n.log2 with
  | zero => simp [writeVarint]
  | succ fuel =>
    unfold writeVarint
    split <;> simp

/-! ## Fields -/

/-- The value of a field. -/
inductive Value where
  | uint (n : Nat)
  | string (bytes : List UInt8)
deriving DecidableEq, Repr

namespace Value

/-- The wire type of a value. -/
def wireType : Value → Nat
  | .uint _ => 0
  | .string _ => 2

/-- The value without its key. -/
def payload : Value → List UInt8
  | .uint n => varint n
  | .string bytes => varint bytes.length ++ bytes

/-- The number of a varint value. -/
def uint? : Value → Option Nat
  | .uint n => some n
  | .string _ => none

/-- The bytes of a length-delimited value. -/
def string? : Value → Option (List UInt8)
  | .uint _ => none
  | .string bytes => some bytes

end Value

/-- A numbered field. -/
abbrev Field := Nat × Value

/-- Write a field: its key, then its value. -/
def field (f : Field) : List UInt8 := varint (f.1 * 8 + f.2.wireType) ++ f.2.payload

/-- Write fields in turn. -/
def fields (fs : List Field) : List UInt8 := fs.flatMap field

/-- Read one field. -/
def readField (bytes : List UInt8) : Option (Field × List UInt8) := do
  let (key, rest) ← readVarint bytes
  if key % 8 = 0 then
    let (n, rest) ← readVarint rest
    return ((key / 8, .uint n), rest)
  else if key % 8 = 2 then
    let (len, rest) ← readVarint rest
    if len ≤ rest.length then
      return ((key / 8, .string (rest.take len)), rest.drop len)
    else
      none
  else
    none

/-- Read fields to the end; `fuel` bounds their number. -/
def readFields : Nat → List UInt8 → Option (List Field)
  | _, [] => some []
  | 0, _ :: _ => none
  | fuel + 1, bytes => do
    let (f, rest) ← readField bytes
    let fs ← readFields fuel rest
    return f :: fs

/-- Read a message's fields. -/
def parse (bytes : List UInt8) : Option (List Field) := readFields bytes.length bytes

/-- **A field is read back**, and what follows it is left. -/
theorem readField_field (f : Field) (rest : List UInt8) :
    readField (field f ++ rest) = some (f, rest) := by
  obtain ⟨num, value⟩ := f
  have hkey : ∀ tail, readVarint (varint (num * 8 + value.wireType) ++ tail)
      = some (num * 8 + value.wireType, tail) := readVarint_varint _
  cases value with
  | uint n =>
    have hmod : (num * 8 + 0) % 8 = 0 := by omega
    have hdiv : (num * 8 + 0) / 8 = num := by omega
    rw [field, List.append_assoc, readField, hkey]
    simp only [Value.wireType, Value.payload, Option.bind_eq_bind, Option.bind_some, hmod, hdiv,
      if_true, readVarint_varint]
    rfl
  | string bytes =>
    have hmod : (num * 8 + 2) % 8 = 2 := by omega
    have hdiv : (num * 8 + 2) / 8 = num := by omega
    rw [field, List.append_assoc, readField, hkey]
    simp only [Value.wireType, Value.payload, Option.bind_eq_bind, Option.bind_some, hmod, hdiv,
      List.append_assoc, readVarint_varint, List.length_append, Nat.le_add_right, if_true,
      List.take_left, List.drop_left, OfNat.ofNat_ne_zero, if_false]
    rfl

theorem field_ne_nil (f : Field) : field f ≠ [] := by
  simp [field, varint_ne_nil]

/-- **A message's fields are read back**, all of them. -/
theorem readFields_fields (fs : List Field) {fuel : Nat} (hfuel : fs.length ≤ fuel) :
    readFields fuel (fields fs) = some fs := by
  induction fs generalizing fuel with
  | nil => cases fuel <;> rfl
  | cons f fs ih =>
    cases fuel with
    | zero => exact absurd hfuel (Nat.not_succ_le_zero _)
    | succ fuel =>
      obtain ⟨b, bytes, hbytes⟩ := List.exists_cons_of_ne_nil
        (show fields (f :: fs) ≠ [] by simp [fields, field_ne_nil])
      have hread : readField (fields (f :: fs)) = some (f, fields fs) := readField_field f _
      rw [hbytes] at hread ⊢
      simp only [readFields, hread, Option.bind_eq_bind, Option.bind_some,
        ih (Nat.le_of_succ_le_succ hfuel)]
      rfl

/-- **A message's fields are read back.** -/
theorem parse_fields (fs : List Field) : parse (fields fs) = some fs := by
  refine readFields_fields fs ?_
  induction fs with
  | nil => exact Nat.zero_le _
  | cons f fs ih =>
    have hpos : 0 < (field f).length := List.length_pos_of_ne_nil (field_ne_nil f)
    rw [fields, List.flatMap_cons, List.length_append, List.length_cons]
    unfold fields at ih
    omega

/-! ## Writing a message -/

/-- A varint field, left out if it is zero. -/
def uint (num n : Nat) : List Field := if n = 0 then [] else [(num, .uint n)]

/-- A length-delimited field, left out if it is empty. -/
def string (num : Nat) (bytes : List UInt8) : List Field :=
  if bytes = [] then [] else [(num, .string bytes)]

/-- A repeated length-delimited field. -/
def repeated (num : Nat) (entries : List (List UInt8)) : List Field :=
  entries.map fun bytes => (num, .string bytes)

/-- A submessage that is present. -/
def submessage (num : Nat) (fs : List Field) : List Field := [(num, .string (fields fs))]

/-! ## Reading a message -/

/-- The values of a field number, in order. -/
def values (num : Nat) (fs : List Field) : List Value :=
  fs.filterMap fun f => if f.1 = num then some f.2 else none

/-- The last varint of a field number, or zero. -/
def lastUint (num : Nat) (fs : List Field) : Option Nat :=
  ((values num fs).mapM Value.uint?).map fun ns => ns.getLast?.getD 0

/-- The last bytes of a field number, or none. -/
def lastString (num : Nat) (fs : List Field) : Option (List UInt8) :=
  ((values num fs).mapM Value.string?).map fun entries => entries.getLast?.getD []

/-- All bytes of a field number, in order. -/
def allStrings (num : Nat) (fs : List Field) : Option (List (List UInt8)) :=
  (values num fs).mapM Value.string?

variable {num num' : Nat} {fs fs' : List Field}

/-- The values of a field number, in the order they come. -/
@[simp]
theorem values_append : values num (fs ++ fs') = values num fs ++ values num fs' :=
  List.filterMap_append

@[simp]
theorem values_uint (n : Nat) :
    values num (uint num' n) = if num' = num ∧ n ≠ 0 then [.uint n] else [] := by
  by_cases hnum : num' = num <;> by_cases hn : n = 0 <;> simp [values, uint, hnum, hn]

@[simp]
theorem values_string (bytes : List UInt8) :
    values num (string num' bytes) = if num' = num ∧ bytes ≠ [] then [.string bytes] else [] := by
  by_cases hnum : num' = num <;> by_cases hn : bytes = [] <;> simp [values, string, hnum, hn]

@[simp]
theorem values_repeated (entries : List (List UInt8)) :
    values num (repeated num' entries) = if num' = num then entries.map .string else [] := by
  induction entries with
  | nil => simp [values, repeated]
  | cons bytes entries ih =>
    unfold repeated values at ih ⊢
    by_cases hnum : num' = num
    · simp only [hnum, if_true, List.map_cons, List.filterMap_cons] at ih ⊢
      rw [ih]
    · simp [hnum]

/-- A number that was left out, being zero, is read as zero. -/
theorem lastUint_eq_uint (num : Nat) (fs : List Field) {n : Nat}
    (h : values num fs = if n ≠ 0 then [.uint n] else []) :
    lastUint num fs = some n := by
  rw [lastUint, h]
  by_cases hn : n = 0 <;> simp [hn, Value.uint?]

/-- A string that was left out, being empty, is read as empty. -/
theorem lastString_eq_string (num : Nat) (fs : List Field) (bytes : List UInt8)
    (h : values num fs = if bytes ≠ [] then [.string bytes] else []) :
    lastString num fs = some bytes := by
  rw [lastString, h]
  by_cases hn : bytes = [] <;> simp [hn, Value.string?]

theorem allStrings_eq (num : Nat) (fs : List Field) (entries : List (List UInt8))
    (h : values num fs = entries.map .string) :
    allStrings num fs = some entries := by
  rw [allStrings, h]
  clear h
  induction entries with
  | nil => rfl
  | cons bytes entries ih => simp [Value.string?, ih]

/-! ## Lengths -/

theorem fields_append : fields (fs ++ fs') = fields fs ++ fields fs' := List.flatMap_append

theorem length_fields_append : (fields (fs ++ fs')).length = (fields fs).length + (fields fs').length := by
  rw [fields_append, List.length_append]

/-- A field numbered below 16 has a key of one byte. -/
theorem length_field_le (value : Value) (hnum : num < 16) :
    (field (num, value)).length ≤ 1 + value.payload.length := by
  have hkey : num * 8 + value.wireType < 128 ^ (0 + 1) := by
    have hwire : value.wireType ≤ 2 := by cases value <;> simp [Value.wireType]
    omega
  rw [field, List.length_append]
  exact Nat.add_le_add_right (length_varint_le hkey) _

/-- A number below `128^(k+1)` takes `k + 2` bytes at most. -/
theorem length_uint_le {k n : Nat} (hnum : num < 16) (hn : n < 128 ^ (k + 1)) :
    (fields (uint num n)).length ≤ k + 2 := by
  unfold uint
  split
  · exact Nat.zero_le _
  · have hfield := length_field_le (.uint n) hnum
    have hvarint : (Value.uint n).payload.length ≤ k + 1 := length_varint_le hn
    have hsingle : fields [(num, .uint n)] = field (num, .uint n) := List.flatMap_singleton ..
    rw [hsingle]
    omega

/-- Bytes below `128^(k+1)` in number take `k + 2` more at most. -/
theorem length_string_field_le {k : Nat} {bytes : List UInt8} (hnum : num < 16)
    (hlen : bytes.length < 128 ^ (k + 1)) :
    (field (num, .string bytes)).length ≤ k + 2 + bytes.length := by
  have hfield := length_field_le (.string bytes) hnum
  have hvarint := length_varint_le hlen
  rw [Value.payload, List.length_append] at hfield
  omega

/-- A message in a message adds a tag and a length. -/
theorem length_submessage_le {k : Nat} (hnum : num < 16) (hlen : (fields fs).length < 128 ^ (k + 1)) :
    (fields (submessage num fs)).length ≤ k + 2 + (fields fs).length := by
  have hsingle : fields (submessage num fs) = field (num, .string (fields fs)) :=
    List.flatMap_singleton ..
  rw [hsingle]
  exact length_string_field_le hnum hlen

/-- A string adds a tag and a length, too. -/
theorem length_string_le {k : Nat} {bytes : List UInt8} (hnum : num < 16)
    (hlen : bytes.length < 128 ^ (k + 1)) :
    (fields (string num bytes)).length ≤ k + 2 + bytes.length := by
  unfold string
  split
  · exact Nat.zero_le _
  · have hsingle : fields [(num, .string bytes)] = field (num, .string bytes) :=
      List.flatMap_singleton ..
    rw [hsingle]
    exact length_string_field_le hnum hlen

/-- Entries of `len` bytes at most take `k + 2` more each. -/
theorem length_repeated_le {k len : Nat} {entries : List (List UInt8)} (hnum : num < 16)
    (hlen : len < 128 ^ (k + 1)) (hentries : ∀ bytes ∈ entries, bytes.length ≤ len) :
    (fields (repeated num entries)).length ≤ (k + 2 + len) * entries.length := by
  induction entries with
  | nil => exact Nat.zero_le _
  | cons bytes entries ih =>
    have hbytes := hentries bytes List.mem_cons_self
    have hfield := length_string_field_le hnum (Nat.lt_of_le_of_lt hbytes hlen)
    have hrest := ih fun b hb => hentries b (List.mem_cons_of_mem bytes hb)
    have hcons : fields (repeated num (bytes :: entries))
        = field (num, .string bytes) ++ fields (repeated num entries) := List.flatMap_cons
    rw [hcons, List.length_append, List.length_cons, Nat.mul_succ]
    omega

end Ethp2p.Protobuf
