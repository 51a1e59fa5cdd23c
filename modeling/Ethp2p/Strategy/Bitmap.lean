/-
# Ethp2p.Strategy.Bitmap — the shard havelist (`strategy/bitmap.rs`).

A bitmap over `n` bits is a vector of 64-bit limbs; bit `i` lives in limb `i / 64` at position
`i % 64`.  The number of limbs is fixed by `n`, and that is a FIELD of the structure: every
constructor and operation below has to show that it keeps it, so the limb reads of `set` and `get`
are always in range.

On the wire a bitmap is its packed bytes, lowest bit first; `n` is implied by context.
-/
import Ethp2p.Lib.BTree

namespace Ethp2p

/-- Byte strings (`Vec<u8>`). -/
abbrev Bytes := List UInt8

/-- Bits in one limb. -/
def bitsPerLimb : Nat := 64

/-- Number of limbs that hold `n` bits. -/
def limbsFor (n : Nat) : Nat := (n + bitsPerLimb - 1) / bitsPerLimb

/-- Number of bytes that hold `n` bits. -/
def bytesFor (n : Nat) : Nat := (n + 8 - 1) / 8

/-- The limb of bit `idx`, and its position inside the limb. -/
def limbBit (idx : Nat) : Nat × Nat := (idx / bitsPerLimb, idx % bitsPerLimb)

/-- Shard havelist.  Bit `i` set means the holder has shard `i`. -/
structure BitMap where
  bits : List (BitVec 64)
  n : Nat
  length_bits : bits.length = limbsFor n
deriving DecidableEq

/-- Errors of the `BitMap` operations. -/
inductive BitMapError where
  | outOfRange (idx n : Nat)
  | sizeMismatch (lhsN rhsN : Nat)
  | invalidByteLength (got expected : Nat)
deriving DecidableEq, Repr

namespace BitMap

/-- All bits cleared, room for `n` bits. -/
def withCapacity (n : Nat) : BitMap :=
  ⟨List.replicate (limbsFor n) 0, n, List.length_replicate⟩

/-- Set bit `idx`. -/
def set (b : BitMap) (idx : Nat) : Except BitMapError BitMap :=
  if idx ≥ b.n then
    .error (.outOfRange idx b.n)
  else
    let (limb, bit) := limbBit idx
    .ok ⟨b.bits.modify limb (· ||| (1 <<< bit)), b.n, by simpa using b.length_bits⟩

/-- Get bit `idx`; `false` out of range. -/
def get (b : BitMap) (idx : Nat) : Bool :=
  if idx ≥ b.n then
    false
  else
    let (limb, bit) := limbBit idx
    ((b.bits.getD limb 0) >>> bit) &&& 1 == 1

/-- Number of set bits of one limb. -/
def limbOnes (w : BitVec 64) : Nat := (List.range 64).countP (w.getLsbD ·)

/-- Number of set bits. -/
def countOnes (b : BitMap) : Nat := (b.bits.map limbOnes).sum

/-- OR-merge `other` into `b`. -/
def orMerge (b other : BitMap) : Except BitMapError BitMap :=
  if h : b.n ≠ other.n then
    .error (.sizeMismatch b.n other.n)
  else
    .ok ⟨List.zipWith (· ||| ·) b.bits other.bits, b.n, by
      have hn : b.n = other.n := not_ne_iff.mp h
      simp [b.length_bits, other.length_bits, hn]⟩

/-- `u64::to_le_bytes`. -/
def toLeBytes (w : BitVec 64) : Bytes :=
  (List.range 8).map fun i => UInt8.ofBitVec ((w >>> (8 * i)).setWidth 8)

/-- `u64::from_le_bytes`, on up to eight bytes (missing high bytes are zero). -/
def fromLeBytes (bytes : Bytes) : BitVec 64 :=
  bytes.zipIdx.foldl (fun w (b, i) => w ||| (b.toBitVec.setWidth 64 <<< (8 * i))) 0

/-- Packed bytes, lowest bit first.  The last limb may be partial: only the bytes still missing
from the `bytesFor n` total are taken from it. -/
def asBytes (b : BitMap) : Bytes :=
  b.bits.zipIdx.foldl (fun out (limb, idx) =>
    if idx = b.bits.length - 1 then
      out ++ (toLeBytes limb).take (bytesFor b.n - out.length)
    else
      out ++ toLeBytes limb) []

/-- Parse packed bytes for a declared `n`, clearing the bits above `n` in the last limb. -/
def fromBytes (bytes : Bytes) (n : Nat) : Except BitMapError BitMap :=
  if bytes.length ≠ bytesFor n then
    .error (.invalidByteLength bytes.length (bytesFor n))
  else
    let limbs := (List.range (limbsFor n)).map fun i => fromLeBytes ((bytes.drop (8 * i)).take 8)
    let used := n % bitsPerLimb
    let mask := fun w : BitVec 64 => if used > 0 then w &&& ((1 <<< used) - 1) else w
    .ok ⟨limbs.modify (limbs.length - 1) mask, n, by simp [limbs]⟩

end BitMap

end Ethp2p
