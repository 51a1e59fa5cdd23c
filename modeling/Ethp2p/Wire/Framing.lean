/-
# Ethp2p.Wire.Framing — stream selectors, length-prefixed frames and chunk streams (`selector.rs`, `wire.rs`,
`chunk.rs`).

A stream is its bytes: a writer appends to them, a reader takes from their front and answers
`unexpectedEof` if they end too early.  `encoded_len` is the length of the encoding.

`readFramed_frame` and `readChunkStream_frame` say that a reader takes back exactly what a writer appended,
whatever follows; from a strict prefix of it a reader takes nothing (`readFramed_take`).
-/
import Ethp2p.Lib.AsyncRead
import Ethp2p.Wire.Messages

namespace Ethp2p

/-- `io::ErrorKind`, as far as the wire code uses it. -/
inductive IoErrorKind where
  | invalidInput
  | invalidData
  | unexpectedEof
deriving DecidableEq, Repr

/-! ## Selectors -/

/-- `protocol.proto`'s `Protocol`. -/
inductive Protocol where
  | unspecified
  | bcast
  | sess
  | chunk
deriving DecidableEq, Repr

namespace Protocol

/-- The enum's discriminant. -/
def discriminant : Protocol → UInt8
  | .unspecified => 0
  | .bcast => 1
  | .sess => 2
  | .chunk => 3

/-- `Protocol::try_from`. -/
def tryFrom : UInt8 → Option Protocol
  | 0 => some .unspecified
  | 1 => some .bcast
  | 2 => some .sess
  | 3 => some .chunk
  | _ => none

end Protocol

/-- Write the selector byte. -/
def openStream (written : Bytes) (protocol : Protocol) : Bytes := written ++ [protocol.discriminant]

/-- Read the selector byte. -/
def readSelector : Bytes → Except IoErrorKind (Protocol × Bytes)
  | [] => .error .unexpectedEof
  | byte :: bytes =>
    match Protocol.tryFrom byte with
    | none => .error .invalidData
    | some .unspecified => .error .invalidData
    | some protocol => .ok (protocol, bytes)

/-- The selector of a stream is read back. -/
theorem readSelector_openStream {protocol : Protocol} (h : protocol ≠ .unspecified) (bytes : Bytes) :
    readSelector (openStream [] protocol ++ bytes) = .ok (protocol, bytes) := by
  cases protocol with
  | unspecified => exact absurd rfl h
  | bcast | sess | chunk => rfl

/-! ## Frames -/

/-- Maximum permitted frame size, in bytes. -/
def maxFrameBytes : Nat := 1024 * 1024

/-- `u32::to_be_bytes`. -/
def toBeBytes (n : Nat) : Bytes :=
  [.ofNat (n / 2 ^ 24), .ofNat (n / 2 ^ 16), .ofNat (n / 2 ^ 8), .ofNat n]

/-- `u32::from_be_bytes`. -/
def fromBeBytes (b₀ b₁ b₂ b₃ : UInt8) : Nat :=
  b₀.toNat * 2 ^ 24 + b₁.toNat * 2 ^ 16 + b₂.toNat * 2 ^ 8 + b₃.toNat

/-- A length is read back from its four bytes. -/
theorem fromBeBytes_toBeBytes {n : Nat} (h : n < 2 ^ 32) :
    fromBeBytes (.ofNat (n / 2 ^ 24)) (.ofNat (n / 2 ^ 16)) (.ofNat (n / 2 ^ 8)) (.ofNat n) = n := by
  simp only [fromBeBytes, UInt8.toNat_ofNat']
  omega

variable {M : Type} [Message M]

/-- A message with its length before it. -/
def frame (message : M) : Bytes := toBeBytes (Message.encode message).length ++ Message.encode message

/-- The message is not too long for a frame. -/
def Framed (message : M) : Prop := (Message.encode message).length ≤ maxFrameBytes

instance (message : M) : Decidable (Framed message) := inferInstanceAs (Decidable (_ ≤ _))

/-- Write a message as `u32_be(len) || encoded_bytes`.  (A length that passes the cap fits a `u32`.) -/
def writeFramed (written : Bytes) (message : M) : Except IoErrorKind Unit × Bytes :=
  let len := (Message.encode message).length
  if len > maxFrameBytes then
    (.error .invalidInput, written)
  else
    (.ok (), written ++ (toBeBytes len ++ Message.encode message))

/-- Read one length-prefixed message. -/
def readFramed (M : Type) [Message M] : Bytes → Except IoErrorKind (M × Bytes)
  | b₀ :: b₁ :: b₂ :: b₃ :: bytes =>
    let len := fromBeBytes b₀ b₁ b₂ b₃
    if len > maxFrameBytes then
      .error .invalidData
    else if bytes.length < len then
      .error .unexpectedEof
    else
      match Message.decode (bytes.take len) with
      | .error _ => .error .invalidData
      | .ok message => .ok (message, bytes.drop len)
  | _ => .error .unexpectedEof

/-- A message that fits is written as its frame. -/
theorem writeFramed_of_framed {message : M} (h : Framed message) (written : Bytes) :
    writeFramed written message = (.ok (), written ++ frame message) := by
  unfold writeFramed
  exact if_neg (Nat.not_lt_of_le h)

/-- **A frame is read back**, whatever follows it. -/
theorem readFramed_frame (hinv : Inverts M) {message : M} (h : Framed message) (bytes : Bytes) :
    readFramed M (frame message ++ bytes) = .ok (message, bytes) := by
  have hlen : (Message.encode message).length < 2 ^ 32 := Nat.lt_of_le_of_lt h (by decide)
  have hframe : frame message ++ bytes
      = .ofNat ((Message.encode message).length / 2 ^ 24)
        :: .ofNat ((Message.encode message).length / 2 ^ 16)
        :: .ofNat ((Message.encode message).length / 2 ^ 8)
        :: .ofNat (Message.encode message).length :: (Message.encode message ++ bytes) := by
    simp [frame, toBeBytes]
  have hshort : ¬ (Message.encode message ++ bytes).length < (Message.encode message).length := by
    rw [List.length_append]
    omega
  rw [hframe, readFramed, fromBeBytes_toBeBytes hlen, if_neg (Nat.not_lt_of_le h), if_neg hshort,
    List.take_left, List.drop_left, hinv]

/-- A stream that ends within the length ends too early. -/
theorem readFramed_of_short {bytes : Bytes} (h : bytes.length < 4) :
    readFramed M bytes = .error .unexpectedEof := by
  match bytes with
  | [] | [_] | [_, _] | [_, _, _] => rfl
  | _ :: _ :: _ :: _ :: _ => exact absurd h (by simp)

/-- A frame takes bytes. -/
theorem length_of_readFramed {bytes rest : Bytes} {message : M}
    (h : readFramed M bytes = .ok (message, rest)) : rest.length < bytes.length := by
  match bytes with
  | [] | [_] | [_, _] | [_, _, _] => cases h
  | b₀ :: b₁ :: b₂ :: b₃ :: bytes =>
    rw [readFramed] at h
    split at h
    case isTrue => cases h
    case isFalse =>
      split at h
      case isTrue => cases h
      case isFalse =>
        cases hdecode : (Message.decode (bytes.take (fromBeBytes b₀ b₁ b₂ b₃)) : Except String M) with
        | error err =>
          rw [hdecode] at h
          cases h
        | ok message' =>
          rw [hdecode] at h
          obtain ⟨-, rfl⟩ := Prod.mk.inj (Except.ok.inj h)
          simp only [List.length_drop, List.length_cons]
          omega

theorem length_frame (message : M) : (frame message).length = 4 + (Message.encode message).length := by
  rw [frame, List.length_append]
  rfl

/-- A frame that is cut off is not read. -/
theorem readFramed_take {message : M} (h : Framed message) {n : Nat} (hn : n < (frame message).length) :
    readFramed M ((frame message).take n) = .error .unexpectedEof := by
  have hlen : (Message.encode message).length < 2 ^ 32 := Nat.lt_of_le_of_lt h (by decide)
  rw [length_frame] at hn
  match n with
  | 0 | 1 | 2 | 3 => exact readFramed_of_short ((List.length_take_le _ _).trans_lt (by decide))
  | n + 4 =>
    have hframe : (frame message).take (n + 4)
        = .ofNat ((Message.encode message).length / 2 ^ 24)
          :: .ofNat ((Message.encode message).length / 2 ^ 16)
          :: .ofNat ((Message.encode message).length / 2 ^ 8)
          :: .ofNat (Message.encode message).length :: (Message.encode message).take n := by
      simp [frame, toBeBytes]
    have hshort : ((Message.encode message).take n).length < (Message.encode message).length := by
      rw [List.length_take]
      omega
    rw [hframe, readFramed, fromBeBytes_toBeBytes hlen, if_neg (Nat.not_lt_of_le h), if_pos hshort]

/-! ## Chunk streams -/

/-- Maximum permitted chunk payload size, in bytes. -/
def maxChunkDataBytes : Nat := 1024 * 1024

variable [Message Header]

/-- Write a complete CHUNK stream: selector, header, payload. -/
def writeChunk (written : Bytes) (header : Header) (payload : Bytes) : Except IoErrorKind Unit × Bytes :=
  if header.dataLength > maxChunkDataBytes then
    (.error .invalidInput, written)
  else if payload.length ≠ header.dataLength then
    (.error .invalidInput, written)
  else
    let written := openStream written .chunk
    match writeFramed written header with
    | (.error err, written) => (.error err, written)
    | (.ok (), written) => (.ok (), written ++ payload)

/-- Read the header of a CHUNK stream; the payload follows it. -/
def readChunkStream (bytes : Bytes) : Except IoErrorKind (Header × Bytes) :=
  match readFramed Header bytes with
  | .error err => .error err
  | .ok (header, bytes) =>
    if header.dataLength > maxChunkDataBytes then
      .error .invalidData
    else
      .ok (header, bytes)

/-- Read the payload of a CHUNK stream; an `unexpectedEof` if the stream ends before the declared length. -/
def readPayload (header : Header) (bytes : Bytes) : Except IoErrorKind (Bytes × Bytes) :=
  takeExact .unexpectedEof header.dataLength bytes

/-- A chunk that fits is written as selector, header and payload. -/
theorem writeChunk_of_fits {header : Header} {payload : Bytes} (hheader : Framed header)
    (hlen : payload.length = header.dataLength) (hmax : payload.length ≤ maxChunkDataBytes)
    (written : Bytes) :
    writeChunk written header payload
      = (.ok (), openStream written .chunk ++ frame header ++ payload) := by
  have hcap : ¬ header.dataLength > maxChunkDataBytes := by
    rw [← hlen]
    exact Nat.not_lt_of_le hmax
  unfold writeChunk
  rw [if_neg hcap, if_neg (not_not.mpr hlen)]
  simp only [writeFramed_of_framed hheader]

/-- **A chunk's header is read back**, whatever follows it. -/
theorem readChunkStream_frame (hinv : Inverts Header) {header : Header} (hheader : Framed header)
    (hmax : header.dataLength ≤ maxChunkDataBytes) (bytes : Bytes) :
    readChunkStream (frame header ++ bytes) = .ok (header, bytes) := by
  rw [readChunkStream, readFramed_frame hinv hheader]
  exact if_neg (Nat.not_lt_of_le hmax)

omit [Message Header] in
/-- A payload is read back, and what follows it is left. -/
theorem readPayload_append {header : Header} {payload : Bytes} (hlen : payload.length = header.dataLength)
    (bytes : Bytes) : readPayload header (payload ++ bytes) = .ok (payload, bytes) := by
  rw [readPayload, ← hlen, takeExact_append]

end Ethp2p
