/-
# Ethp2p.Wire.Reading — the wire's readers, poll by poll (`selector.rs`, `wire.rs`, `chunk.rs`).

The functions of `Wire.Framing` read a stream as the bytes it has.  The code reads it from an `AsyncRead`
that gives the bytes in pieces of any size; these are its functions, and each FOLLOWS its namesake on
bytes, so what a stream means does not depend on how it arrives.

A chunk's payload is read through a `ChunkPayloadReader`, which counts the declared bytes down and so stops
in the middle of whatever the stream has.  It is a lawful reader itself: of the first `remaining` bytes, and
with `unexpectedEof` at its end if the stream has fewer.
-/
import Ethp2p.Wire.Framing

namespace Ethp2p

open LawfulAsyncRead

/-! ## A stream in segments -/

/-- An inbound stream as it arrives: its bytes in segments, an empty one being a poll that finds nothing
yet.  After the last segment the stream has been finished.  As with QUIC streams, a poll with an empty buffer
is answered at once, wherever the stream is. -/
structure RecvStream where
  segments : List Bytes

namespace RecvStream

/-- A poll gives what it can of the first segment. -/
def pollRead (recv : RecvStream) (capacity : Nat) : Poll (Except IoErrorKind Bytes) × RecvStream :=
  if capacity = 0 then
    (.ready (.ok []), recv)
  else
    match recv.segments with
    | [] => (.ready (.ok []), recv)
    | [] :: segments => (.pending, ⟨segments⟩)
    | segment :: segments =>
      (.ready (.ok (segment.take capacity)),
        ⟨if segment.length ≤ capacity then segments else segment.drop capacity :: segments⟩)

/-- What is left after a poll that read something. -/
theorem flatten_rest (segment : Bytes) (segments : List Bytes) (capacity : Nat) :
    (if segment.length ≤ capacity then segments else segment.drop capacity :: segments).flatten
      = segment.drop capacity ++ segments.flatten := by
  split
  case isTrue h => rw [List.drop_of_length_le h, List.nil_append]
  case isFalse => rfl

instance : AsyncRead IoErrorKind RecvStream where
  pollRead := pollRead
  left recv := recv.segments.length + recv.segments.flatten.length
  left_lt := by
    rintro ⟨segments⟩ capacity hgoes
    by_cases hempty : capacity = 0
    · subst hempty
      exact absurd rfl hgoes
    · simp only [pollRead, if_neg hempty] at hgoes ⊢
      match segments with
      | [] => exact absurd rfl hgoes
      | [] :: segments => simp
      | (byte :: data) :: segments =>
        simp only [flatten_rest]
        split <;> simp <;> omega

instance : LawfulAsyncRead IoErrorKind RecvStream where
  content recv := recv.segments.flatten
  ending _ := .ok ()
  polled := by
    rintro ⟨segments⟩ capacity hcapacity
    show Polled _ _ _ (pollRead _ _).1 (pollRead _ _).2.segments.flatten _
    rw [pollRead, if_neg hcapacity.ne']
    match segments with
    | [] => exact .ended rfl rfl
    | [] :: segments => exact .pending
    | (byte :: data) :: segments =>
      refine .read ?_ (List.length_take_le _ _) ?_
      · simp [hcapacity.ne']
      · show _ = _ ++ List.flatten (if _ then _ else _)
        rw [flatten_rest, ← List.append_assoc, List.take_append_drop]
        rfl

instance : LawfulEmptyRead IoErrorKind RecvStream where
  polled_empty _ := .ready

end RecvStream

/-! ## Chunk payloads -/

/-- A reader of exactly the declared bytes of a chunk's payload. -/
structure ChunkPayloadReader (R : Type) where
  reader : R
  remaining : Nat

namespace ChunkPayloadReader

variable {R : Type}

/-- A poll gives no more than what remains; no bytes from the stream mean that it is too short. -/
def pollRead [AsyncRead IoErrorKind R] (payload : ChunkPayloadReader R) (capacity : Nat) :
    Poll (Except IoErrorKind Bytes) × ChunkPayloadReader R :=
  if payload.remaining = 0 then
    (.ready (.ok []), payload)
  else
    let want := min payload.remaining capacity
    match AsyncRead.pollRead payload.reader want with
    | (.ready (.ok data), reader) =>
      let n := data.length
      if n = 0 then
        (.ready (.error .unexpectedEof), { payload with reader := reader })
      else
        (.ready (.ok data), { reader := reader, remaining := payload.remaining - n })
    | (other, reader) => (other, { payload with reader := reader })

/-- A poll that goes on is one of the stream's that goes on. -/
theorem left_pollRead_lt [AsyncRead IoErrorKind R] (payload : ChunkPayloadReader R) (capacity : Nat)
    (hgoes : (payload.pollRead capacity).1.GoesOn) :
    AsyncRead.left (payload.pollRead capacity).2.reader < AsyncRead.left payload.reader := by
  obtain ⟨reader, remaining⟩ := payload
  have hlt := AsyncRead.left_lt reader (min remaining capacity)
  unfold pollRead at hgoes ⊢
  by_cases hzero : remaining = 0
  · rw [if_pos hzero] at hgoes
    exact absurd rfl hgoes
  · rw [if_neg hzero] at hgoes ⊢
    match hpoll : AsyncRead.pollRead reader (min remaining capacity) with
    | (.pending, reader') =>
      rw [hpoll] at hlt
      simp only [hpoll]
      exact hlt trivial
    | (.ready (.error err), reader') =>
      simp only [hpoll] at hgoes
      exact hgoes.elim
    | (.ready (.ok data), reader') =>
      rw [hpoll] at hlt
      simp only [hpoll] at hgoes ⊢
      split
      case isTrue hn =>
        rw [if_pos hn] at hgoes
        exact hgoes.elim
      case isFalse hn => exact hlt fun hnil => hn (List.length_eq_zero_iff.mpr hnil)

instance [AsyncRead IoErrorKind R] : AsyncRead IoErrorKind (ChunkPayloadReader R) where
  pollRead := pollRead
  left payload := AsyncRead.left payload.reader
  left_lt := left_pollRead_lt

variable [LawfulAsyncRead IoErrorKind R]

/-- The bytes of the payload that are still to be read. -/
def content (payload : ChunkPayloadReader R) : Bytes :=
  (LawfulAsyncRead.content payload.reader).take payload.remaining

/-- A payload ends cleanly if the stream has all of it. -/
def ending (payload : ChunkPayloadReader R) : Except IoErrorKind Unit :=
  if payload.remaining ≤ (LawfulAsyncRead.content payload.reader).length then .ok ()
  else .error (endError .unexpectedEof (LawfulAsyncRead.ending payload.reader))

/-- What the stream has after the payload. -/
def beyond (payload : ChunkPayloadReader R) : Bytes × Except IoErrorKind Unit :=
  ((LawfulAsyncRead.content payload.reader).drop payload.remaining, LawfulAsyncRead.ending payload.reader)

/-- **A poll of the payload** takes from its front, and touches nothing beyond it. -/
theorem pollRead_polled (payload : ChunkPayloadReader R) {capacity : Nat} (hcapacity : 0 < capacity) :
    Polled capacity payload.content payload.ending (payload.pollRead capacity).1
        (payload.pollRead capacity).2.content (payload.pollRead capacity).2.ending
      ∧ (payload.pollRead capacity).2.beyond = payload.beyond := by
  obtain ⟨reader, remaining⟩ := payload
  unfold pollRead
  by_cases hzero : remaining = 0
  · rw [if_pos hzero]
    subst hzero
    exact ⟨.ended rfl rfl, rfl⟩
  · rw [if_neg hzero]
    have hwant : 0 < min remaining capacity := by omega
    have hlong : ¬ remaining ≤ 0 := by omega
    -- pending, an error, the end, or bytes, of which no more than `remaining` are taken
    match hpoll : AsyncRead.pollRead reader (min remaining capacity) with
    | (.pending, reader') =>
      obtain ⟨hcontent, hending⟩ := (polled_of hwant hpoll).of_pending
      simp only [hpoll, content, ending, beyond, hcontent, hending]
      exact ⟨.pending, trivial⟩
    | (.ready (.error err), reader') =>
      obtain ⟨hcontent, hending, hcontent', hending'⟩ := (polled_of hwant hpoll).of_error
      simp only [hpoll, content, ending, beyond, hcontent, hending, hcontent', hending', List.length_nil,
        if_neg hlong, List.take_nil, endError]
      exact ⟨.failed rfl rfl, trivial⟩
    | (.ready (.ok data), reader') =>
      by_cases hsome : data = []
      · subst hsome
        obtain ⟨hcontent, hending, hcontent', hending'⟩ := (polled_of hwant hpoll).of_nil
        simp only [hpoll, content, ending, beyond, hcontent, hending, hcontent', hending', List.length_nil,
          if_neg hlong, List.take_nil, endError, if_true]
        exact ⟨.failed rfl rfl, trivial⟩
      · obtain ⟨hfits, hfront, hending⟩ := (polled_of hwant hpoll).of_data hsome
        have hremaining : data.length ≤ remaining := hfits.trans (min_le_left _ _)
        have hle : remaining ≤ (LawfulAsyncRead.content reader).length
            ↔ remaining - data.length ≤ (LawfulAsyncRead.content reader').length := by
          rw [hfront, List.length_append]
          omega
        simp only [hpoll, if_neg (mt List.length_eq_zero_iff.mp hsome), content, ending, beyond, hle, hending]
        refine ⟨.read hsome (hfits.trans (min_le_right _ _)) ?_, ?_⟩
        · rw [hfront, List.take_append, List.take_of_length_le hremaining]
        · rw [hfront, List.drop_append, List.drop_of_length_le hremaining, List.nil_append]

instance : LawfulAsyncRead IoErrorKind (ChunkPayloadReader R) where
  content := content
  ending := ending
  polled payload _ hcapacity := (payload.pollRead_polled hcapacity).1

/-- **Reading a payload to its end** takes the declared bytes from the stream and no more, or fails. -/
theorem pollToEnd_payload {buffers : Nat → Nat} (hbuffers : ∀ t, 0 < buffers t) {reader : R}
    (hending : LawfulAsyncRead.ending reader = .ok ()) (n : Nat) :
    Took ((pollToEnd buffers 0 (mk reader n)).1, (pollToEnd buffers 0 (mk reader n)).2.reader)
      (takeExact .unexpectedEof n (LawfulAsyncRead.content reader)) := by
  obtain ⟨hread, hcontent, hend⟩ := pollToEnd_spec hbuffers 0 (mk reader n)
  have hbeyond : (pollToEnd buffers 0 (mk reader n)).2.beyond = (mk reader n).beyond :=
    pollToEnd_frame buffers (fun t payload => (pollRead_polled payload (hbuffers t)).2) 0 _
  generalize pollToEnd buffers 0 (mk reader n) = result at *
  obtain ⟨result, ⟨reader', remaining⟩⟩ := result
  change result = (ending _).map fun _ => content _ at hread
  change ending _ = ending _ at hend
  obtain ⟨hrest, hending'⟩ := Prod.mk.inj hbeyond
  rw [takeExact]
  split
  case isTrue hlt =>
    rw [ending, if_neg (by dsimp only; omega), hending] at hread
    rw [hread]
    exact .error
  case isFalse hle =>
    have hclean : ending (mk reader n) = .ok () := if_pos (Nat.le_of_not_lt hle)
    have henough : remaining ≤ (LawfulAsyncRead.content reader').length := by
      by_contra hshort
      rw [hclean, ending, if_neg hshort] at hend
      cases hend
    -- all polls read the declared length, so nothing of it is left
    have hdone : remaining = 0 := by
      have hlen := congrArg List.length hcontent
      change ((LawfulAsyncRead.content reader').take remaining).length = 0 at hlen
      rw [List.length_take] at hlen
      omega
    subst hdone
    rw [hread, hclean, ← hrest]
    exact .ok (hending'.trans hending)

end ChunkPayloadReader

/-! ## Readers -/

namespace AsyncRead

variable {R : Type} [AsyncRead IoErrorKind R]

/-- Read the selector byte. -/
def readSelector : Reading IoErrorKind R Protocol := do
  let [byte] ← readExact .unexpectedEof 1 | throw .unexpectedEof
  match Protocol.tryFrom byte with
  | none => throw .invalidData
  | some .unspecified => throw .invalidData
  | some protocol => pure protocol

/-- Read one length-prefixed message. -/
def readFramed (M : Type) [Message M] : Reading IoErrorKind R M := do
  let [b₀, b₁, b₂, b₃] ← readExact .unexpectedEof 4 | throw .unexpectedEof
  let len := fromBeBytes b₀ b₁ b₂ b₃
  if len > maxFrameBytes then
    throw .invalidData
  let buf ← readExact .unexpectedEof len
  match Message.decode buf with
  | .error _ => throw .invalidData
  | .ok message => pure message

variable [Message Header]

/-- Read the header of a CHUNK stream; the payload follows it. -/
def readChunkStream : Reading IoErrorKind R Header := do
  let header ← readFramed Header
  if header.dataLength > maxChunkDataBytes then
    throw .invalidData
  pure header

omit [Message Header] in
/-- Read the payload of a CHUNK stream, with buffers of these sizes. -/
def readPayload (buffers : Nat → Nat) (header : Header) : Reading IoErrorKind R Bytes := fun reader =>
  let (result, payload) := readToEnd buffers { reader, remaining := header.dataLength : ChunkPayloadReader R }
  (result, payload.reader)

end AsyncRead

/-! ## What the readers read -/

section Follows

variable {R : Type} [LawfulAsyncRead IoErrorKind R]

theorem follows_readSelector :
    Follows (AsyncRead.readSelector : Reading IoErrorKind R Protocol) readSelector := by
  intro r hending
  refine (follows_readExact .unexpectedEof 1 r hending).bind (fun data r' hending' hdata => ?_) fun err herr => ?_
  · obtain ⟨hbytes, hlen⟩ := takeExact_eq_ok hdata
    match data, hlen with
    | [byte], _ =>
      simp only [hbytes, List.cons_append, List.nil_append, readSelector]
      cases Protocol.tryFrom byte with
      | none => exact .error
      | some protocol =>
        cases protocol with
        | unspecified => exact .error
        | bcast | sess | chunk => exact .ok hending'
  · obtain ⟨hshort, rfl⟩ := takeExact_eq_error herr
    rw [List.length_eq_zero_iff.mp (Nat.lt_one_iff.mp hshort), readSelector]

variable {M : Type} [Message M]

theorem follows_readFramed :
    Follows (AsyncRead.readFramed M : Reading IoErrorKind R M) (readFramed M) := by
  intro r hending
  refine (follows_readExact .unexpectedEof 4 r hending).bind (fun data r' hending' hdata => ?_) fun err herr => ?_
  · obtain ⟨hbytes, hlen⟩ := takeExact_eq_ok hdata
    obtain ⟨b₀, tail, rfl⟩ := List.exists_cons_of_length_eq_add_one hlen
    obtain ⟨b₁, b₂, b₃, rfl⟩ := List.length_eq_three.mp (Nat.succ.inj hlen)
    simp only [hbytes, List.cons_append, List.nil_append, readFramed]
    split
    case isTrue => exact .error
    case isFalse =>
      refine (follows_readExact .unexpectedEof _ r' hending').bind (fun buf r'' hending'' hbuf => ?_)
        fun err herr => ?_
      · unfold takeExact at hbuf
        split at hbuf
        case isTrue => cases hbuf
        case isFalse hle =>
          obtain ⟨rfl, hrest⟩ := Prod.mk.inj (Except.ok.inj hbuf)
          rw [if_neg hle, hrest]
          cases (Message.decode ((content r').take (fromBeBytes b₀ b₁ b₂ b₃)) : Except String M) with
          | error => exact .error
          | ok => exact .ok hending''
      · obtain ⟨hlt, rfl⟩ := takeExact_eq_error herr
        exact if_pos hlt
  · obtain ⟨hshort, rfl⟩ := takeExact_eq_error herr
    exact readFramed_of_short hshort

variable [Message Header]

theorem follows_readChunkStream :
    Follows (AsyncRead.readChunkStream : Reading IoErrorKind R Header) readChunkStream := by
  intro r hending
  refine (follows_readFramed r hending).bind (fun header r' hending' hheader => ?_) fun err herr => ?_
  · rw [readChunkStream, hheader]
    dsimp only
    split
    case isTrue => exact .error
    case isFalse => exact .ok hending'
  · rw [readChunkStream, herr]

omit [Message Header] in
theorem follows_readPayload {buffers : Nat → Nat} (hbuffers : ∀ t, 0 < buffers t) (header : Header) :
    Follows (AsyncRead.readPayload buffers header : Reading IoErrorKind R Bytes) (readPayload header) :=
  fun _ hending => ChunkPayloadReader.pollToEnd_payload hbuffers hending header.dataLength

end Follows

end Ethp2p
