/-
# Ethp2p.Wire.Messages — the protobuf messages of the wire (`proto/broadcast.proto`, `proto/rs.proto`).

The types are those `prost` generates, a `oneof` being an optional alternative.  `prost` itself is not in
the repository: its `Message` trait is the PARAMETER class here, and what the results need of it is the
hypothesis `Inverts`.

The instances in the namespace `Proto3` are the proto3 encodings of these messages, field by field, for the
places where a result has to be seen at work.
-/
import Ethp2p.Lib.Protobuf
import Ethp2p.Strategy.Rs.Codec
import Ethp2p.Session

namespace Ethp2p

/-- `prost::Message`; a decoding error is rendered as its message. -/
class Message (M : Type) where
  encode : M → Bytes
  decode : Bytes → Except String M

/-- Decoding inverts encoding. -/
def Inverts (M : Type) [Message M] : Prop := ∀ m : M, Message.decode (Message.encode m) = .ok m

/-- `Bcast`'s alternatives. -/
inductive BcastMessage where
  | peerHandshake (version : Nat) (channels : List ChannelId) (peerId : String)
  | channelSubscribe (channel : ChannelId)
  | channelUnsubscribe (channel : ChannelId)
deriving DecidableEq, Repr

/-- A frame of a BCAST stream. -/
structure Bcast where
  message : Option BcastMessage
deriving DecidableEq, Repr

/-- `Sess`'s alternatives. -/
inductive SessFrame where
  | sessionOpen (channel : ChannelId) (messageId : MessageId) (preamble initialUpdate : Bytes)
  | routingUpdate (data : Bytes)
deriving DecidableEq, Repr

/-- A frame of a SESS stream. -/
structure Sess where
  frame : Option SessFrame
deriving DecidableEq, Repr

/-- The header of a CHUNK stream. -/
structure Header where
  channel : ChannelId
  messageId : MessageId
  chunkId : Bytes
  dataLength : Nat
deriving DecidableEq, Repr

/-- The chunk identifier of Reed-Solomon coded messages. -/
structure ChunkIdent where
  index : Int32
deriving DecidableEq

/-! ## Proto3 encodings -/

namespace Proto3

open Protobuf

/-- A string's bytes. -/
def utf8 (s : String) : Bytes := s.toByteArray.data.toList

/-- The string of some bytes, if they are UTF-8. -/
def utf8? (bytes : Bytes) : Option String := String.fromUTF8? ⟨bytes.toArray⟩

/-- A text is read back from its bytes. -/
theorem utf8?_utf8 (s : String) : utf8? (utf8 s) = some s := by
  have hbytes : (⟨(utf8 s).toArray⟩ : ByteArray) = s.toByteArray := rfl
  rw [utf8?, hbytes, String.fromUTF8?, dif_pos s.isValidUTF8]
  rfl

/-- An `int32` as a varint: its 64-bit two's complement. -/
def ofInt32 (x : Int32) : Nat := (x.toInt % 2 ^ 64).toNat

/-- The `int32` of a varint: its low 32 bits. -/
def toInt32 (n : Nat) : Int32 := Int32.ofInt n

/-- A signed number is read back from its varint, negative ones included. -/
theorem toInt32_ofInt32 (x : Int32) : toInt32 (ofInt32 x) = x := by
  have hnonneg : 0 ≤ x.toInt % 2 ^ 64 := Int.emod_nonneg _ (by decide)
  refine Int32.toInt_inj.mp ?_
  rw [toInt32, ofInt32, Int.toNat_of_nonneg hnonneg, Int32.toInt_ofInt, ← Int.emod_bmod,
    Int.emod_emod_of_dvd _ (show ((Int32.size : Nat) : Int) ∣ 2 ^ 64 by decide), Int.emod_bmod,
    ← Int32.toInt_ofInt, Int32.ofInt_toInt]

/-- A string field. -/
def lastText (num : Nat) (fs : List Field) : Option String := (lastString num fs).bind utf8?

/-- An `int32` field. -/
def int32 (num : Nat) (x : Int32) : List Field := uint num (ofInt32 x)

/-- An `int32` field, read. -/
def lastInt32 (num : Nat) (fs : List Field) : Option Int32 := (lastUint num fs).map toInt32

theorem lastText_eq (num : Nat) (fs : List Field) (s : String)
    (h : values num fs = if utf8 s ≠ [] then [.string (utf8 s)] else []) :
    lastText num fs = some s := by
  rw [lastText, lastString_eq_string num fs _ h, Option.bind_some, utf8?_utf8]

theorem lastInt32_eq (num : Nat) (fs : List Field) (x : Int32)
    (h : values num fs = if ofInt32 x ≠ 0 then [.uint (ofInt32 x)] else []) :
    lastInt32 num fs = some x := by
  rw [lastInt32, lastUint_eq_uint num fs h, Option.map_some, toInt32_ofInt32]

/-- The last of a `oneof`'s fields, with its submessage's fields. -/
def oneof (nums : List Nat) (fs : List Field) : Option (Option (Nat × List Field)) :=
  match (fs.filter (·.1 ∈ nums)).getLast? with
  | none => some none
  | some (num, value) => do
    let bytes ← value.string?
    let sub ← parse bytes
    return some (num, sub)

/-- The one of its alternatives that is there is found. -/
theorem oneof_submessage (nums : List Nat) {num : Nat} (hnum : num ∈ nums) (sub : List Field) :
    oneof nums (submessage num sub) = some (some (num, sub)) := by
  simp [oneof, submessage, hnum, Value.string?, parse_fields]

/-! ### `Bcast` -/

/-- The fields of a `Bcast`. -/
def bcastFields : Bcast → List Field
  | ⟨none⟩ => []
  | ⟨some (.peerHandshake version channels peerId)⟩ =>
    submessage 1 (uint 1 version ++ repeated 2 (channels.map utf8) ++ string 3 (utf8 peerId))
  | ⟨some (.channelSubscribe channel)⟩ => submessage 2 (string 1 (utf8 channel))
  | ⟨some (.channelUnsubscribe channel)⟩ => submessage 3 (string 1 (utf8 channel))

/-- A `Bcast`, from its fields. -/
def bcastOf (fs : List Field) : Option Bcast := do
  match ← oneof [1, 2, 3] fs with
  | none => return ⟨none⟩
  | some (1, sub) =>
    let version ← lastUint 1 sub
    let channels ← (← allStrings 2 sub).mapM utf8?
    let peerId ← lastText 3 sub
    return ⟨some (.peerHandshake version channels peerId)⟩
  | some (2, sub) => return ⟨some (.channelSubscribe (← lastText 1 sub))⟩
  | some (_, sub) => return ⟨some (.channelUnsubscribe (← lastText 1 sub))⟩

theorem mapM_utf8? (texts : List String) : (texts.map utf8).mapM utf8? = some texts := by
  induction texts with
  | nil => rfl
  | cons text texts ih => simp [utf8?_utf8, ih]

/-- **A broadcast message** is read back from its fields. -/
theorem bcastOf_fields (m : Bcast) : bcastOf (bcastFields m) = some m := by
  obtain ⟨_ | message⟩ := m
  · rfl
  · cases message with
    | peerHandshake version channels peerId =>
      have hversion := lastUint_eq_uint 1
        (uint 1 version ++ repeated 2 (channels.map utf8) ++ string 3 (utf8 peerId)) (n := version) (by simp)
      have hchannels := allStrings_eq 2
        (uint 1 version ++ repeated 2 (channels.map utf8) ++ string 3 (utf8 peerId)) (channels.map utf8) (by simp)
      have hpeer := lastText_eq 3
        (uint 1 version ++ repeated 2 (channels.map utf8) ++ string 3 (utf8 peerId)) peerId (by simp)
      simp only [bcastOf, bcastFields, oneof_submessage [1, 2, 3] (by decide : 1 ∈ _),
        Option.bind_eq_bind, Option.bind_some, hversion, hchannels, mapM_utf8?, hpeer]
      rfl
    | channelSubscribe channel =>
      have hchannel := lastText_eq 1 (string 1 (utf8 channel)) channel (by simp)
      simp only [bcastOf, bcastFields, oneof_submessage [1, 2, 3] (by decide : 2 ∈ _),
        Option.bind_eq_bind, Option.bind_some, hchannel]
      rfl
    | channelUnsubscribe channel =>
      have hchannel := lastText_eq 1 (string 1 (utf8 channel)) channel (by simp)
      simp only [bcastOf, bcastFields, oneof_submessage [1, 2, 3] (by decide : 3 ∈ _),
        Option.bind_eq_bind, Option.bind_some, hchannel]
      rfl

/-! ### `Sess` -/

/-- The fields of a `Sess.Open`. -/
def openFields (channel : ChannelId) (messageId : MessageId) (preamble initialUpdate : Bytes) :
    List Field :=
  string 1 (utf8 channel) ++ string 2 (utf8 messageId) ++ string 3 preamble ++ string 4 initialUpdate

/-- The fields of a `Sess`. -/
def sessFields : Sess → List Field
  | ⟨none⟩ => []
  | ⟨some (.sessionOpen channel messageId preamble initialUpdate)⟩ =>
    submessage 1 (openFields channel messageId preamble initialUpdate)
  | ⟨some (.routingUpdate data)⟩ => submessage 2 (string 1 data)

/-- A `Sess`, from its fields. -/
def sessOf (fs : List Field) : Option Sess := do
  match ← oneof [1, 2] fs with
  | none => return ⟨none⟩
  | some (1, sub) =>
    let channel ← lastText 1 sub
    let messageId ← lastText 2 sub
    let preamble ← lastString 3 sub
    let initialUpdate ← lastString 4 sub
    return ⟨some (.sessionOpen channel messageId preamble initialUpdate)⟩
  | some (_, sub) => return ⟨some (.routingUpdate (← lastString 1 sub))⟩

/-- **A session message** is read back from its fields. -/
theorem sessOf_fields (m : Sess) : sessOf (sessFields m) = some m := by
  obtain ⟨_ | frame⟩ := m
  · rfl
  · cases frame with
    | sessionOpen channel messageId preamble initialUpdate =>
      have hchannel := lastText_eq 1 (openFields channel messageId preamble initialUpdate) channel
        (by simp [openFields])
      have hmessage := lastText_eq 2 (openFields channel messageId preamble initialUpdate) messageId
        (by simp [openFields])
      have hpreamble := lastString_eq_string 3 (openFields channel messageId preamble initialUpdate) preamble
        (by simp [openFields])
      have hupdate := lastString_eq_string 4 (openFields channel messageId preamble initialUpdate)
        initialUpdate (by simp [openFields])
      simp only [sessOf, sessFields, oneof_submessage [1, 2] (by decide : 1 ∈ _),
        Option.bind_eq_bind, Option.bind_some, hchannel, hmessage, hpreamble, hupdate]
      rfl
    | routingUpdate data =>
      have hdata := lastString_eq_string 1 (string 1 data) data (by simp)
      simp only [sessOf, sessFields, oneof_submessage [1, 2] (by decide : 2 ∈ _),
        Option.bind_eq_bind, Option.bind_some, hdata]
      rfl

/-! ### `Chunk.Header`, `ChunkIdent`, `Preamble` -/

/-- The fields of a `Chunk.Header`. -/
def headerFields (m : Header) : List Field :=
  string 1 (utf8 m.channel) ++ string 2 (utf8 m.messageId) ++ string 3 m.chunkId ++ uint 4 m.dataLength

/-- A `Chunk.Header`, from its fields. -/
def headerOf (fs : List Field) : Option Header := do
  return ⟨← lastText 1 fs, ← lastText 2 fs, ← lastString 3 fs, ← lastUint 4 fs⟩

/-- **A stream's header** is read back from its fields. -/
theorem headerOf_fields (m : Header) : headerOf (headerFields m) = some m := by
  have hchannel := lastText_eq 1 (headerFields m) m.channel
    (by simp [headerFields])
  have hmessage := lastText_eq 2 (headerFields m) m.messageId
    (by simp [headerFields])
  have hchunk := lastString_eq_string 3 (headerFields m) m.chunkId
    (by simp [headerFields])
  have hlength := lastUint_eq_uint 4 (headerFields m) (n := m.dataLength)
    (by simp [headerFields])
  simp only [headerOf, hchannel, hmessage, hchunk, hlength, Option.bind_eq_bind, Option.bind_some]
  rfl

/-- A `ChunkIdent`, from its fields. -/
def identOf (fs : List Field) : Option ChunkIdent := (lastInt32 1 fs).map ChunkIdent.mk

/-- The fields of a `Preamble`. -/
def preambleFields (p : Preamble) : List Field :=
  int32 1 p.numData ++ int32 2 p.numParity ++ int32 3 p.length ++ repeated 4 p.hashes ++ string 5 p.hash

/-! ### The codec -/

/-- A message type's codec, from its fields and back. -/
@[reducible]
def message {M : Type} (fieldsOf : M → List Field) (ofFields : List Field → Option M) : Message M where
  encode m := fields (fieldsOf m)
  decode bytes :=
    match (parse bytes).bind ofFields with
    | some m => .ok m
    | none => .error "failed to decode Protobuf message"

/-- What is read back from its fields is read back from its bytes. -/
theorem message_inverts {M : Type} {fieldsOf : M → List Field} {ofFields : List Field → Option M}
    (h : ∀ m, ofFields (fieldsOf m) = some m) : @Inverts M (message fieldsOf ofFields) := by
  intro m
  have hread : (parse (fields (fieldsOf m))).bind ofFields = some m := by
    rw [parse_fields, Option.bind_some, h]
  show (match (parse (fields (fieldsOf m))).bind ofFields with
    | some m => .ok m
    | none => .error "failed to decode Protobuf message") = Except.ok m
  rw [hread]

/-- `Bcast`'s codec. -/
@[reducible]
def bcast : Message Bcast := message bcastFields bcastOf

/-- `Sess`'s codec. -/
@[reducible]
def sess : Message Sess := message sessFields sessOf

/-- `Chunk.Header`'s codec. -/
@[reducible]
def header : Message Header := message headerFields headerOf

/-- `ChunkIdent`'s codec. -/
@[reducible]
def ident : Message ChunkIdent := message (fun m => int32 1 m.index) identOf

theorem ident_inverts : @Inverts ChunkIdent ident :=
  message_inverts fun m => by
    have hindex := lastInt32_eq 1 (int32 1 m.index) m.index (by simp [int32])
    rw [identOf, hindex, Option.map_some]

end Proto3

end Ethp2p
