/-
# Ethp2p.Wire.Delimiting — frames and payloads end where they say (`wire.rs`, `chunk.rs`).

A frame says how long it is, and so messages that are written one after the other are read one after the
other, wherever the stream is cut into polls and whatever follows them.  If the stream itself is cut short,
the messages before the cut are read and then the reader finds the end: `readMessages_writeMessages`,
`readMessages_take`, and `framing_delimits` for all of it.

A chunk's payload says how long it is in the chunk's header.  `ChunkPayloadReader` takes a poll that brings
no bytes for the end of the stream.  A poll with an EMPTY buffer may bring none anywhere in the stream;
`polls_readsExactly_iff` says, of any reader, that this is the one way to be told of an end that is not there.
-/
import Ethp2p.Wire.Reading

namespace Ethp2p

open LawfulAsyncRead

/-! ## Streams of frames -/

section Frames

variable {M : Type} [Message M] {message : M} {messages : List M} {bytes : Bytes}

/-- `write_framed`, message after message. -/
def writeMessages (written : Bytes) (messages : List M) : Bytes :=
  messages.foldl (fun written message => (writeFramed written message).2) written

/-- `read_framed`, as many times. -/
def AsyncRead.readMessages {R : Type} [AsyncRead IoErrorKind R] (M : Type) [Message M] :
    Nat → Reading IoErrorKind R (List M)
  | 0 => pure []
  | n + 1 => do
    let message ← readFramed M
    let messages ← readMessages M n
    pure (message :: messages)

/-- A message is written unless it is too long for a frame. -/
theorem writeFramed_eq_ok_iff (written : Bytes) (message : M) :
    (writeFramed written message).1 = .ok () ↔ Framed message := by
  constructor
  · intro h
    by_contra hlong
    rw [writeFramed, if_pos (Nat.lt_of_not_le hlong)] at h
    cases h
  · intro h
    rw [writeFramed_of_framed h]

/-- Messages that fit are written one behind the other. -/
theorem writeMessages_of_framed (h : ∀ message ∈ messages, Framed message) (written : Bytes) :
    writeMessages written messages = written ++ messages.flatMap frame := by
  induction messages generalizing written with
  | nil => exact (List.append_nil written).symm
  | cons message messages ih =>
    have hrest := ih (fun m hm => h m (List.mem_cons_of_mem message hm)) (written ++ frame message)
    rw [List.flatMap_cons, ← List.append_assoc, ← hrest, writeMessages, List.foldl_cons,
      writeFramed_of_framed (h message List.mem_cons_self), writeMessages]

variable {R : Type} [LawfulAsyncRead IoErrorKind R] {r : R}

/-- Reading a frame begins with its length, which is four bytes. -/
theorem readFramed_length (M : Type) [Message M] {b₀ b₁ b₂ b₃ : UInt8}
    (h : content r = b₀ :: b₁ :: b₂ :: b₃ :: bytes) :
    ∃ r' : R, content r' = bytes ∧ ending r' = ending r ∧
      (fromBeBytes b₀ b₁ b₂ b₃ > maxFrameBytes → AsyncRead.readFramed M r = (.error .invalidData, r'))
      ∧ (¬ fromBeBytes b₀ b₁ b₂ b₃ > maxFrameBytes → AsyncRead.readFramed M r
          = (readExact .unexpectedEof (fromBeBytes b₀ b₁ b₂ b₃) >>= fun buf =>
              match Message.decode buf with
              | .error _ => throw .invalidData
              | .ok message => pure message : Reading IoErrorKind R M) r') := by
  have hlen : 4 ≤ (content r).length := by
    rw [h]
    simp
  obtain ⟨r', hread, hcontent, hending⟩ := @readExact_of_le _ _ _ IoErrorKind.unexpectedEof _ _ hlen
  rw [h] at hread hcontent
  refine ⟨r', hcontent, hending, fun hlong => ?_, fun hshort => ?_⟩
  · refine (Reading.bind_of_ok hread).trans ?_
    exact congrFun (if_pos hlong) r'
  · refine (Reading.bind_of_ok hread).trans ?_
    exact congrFun (if_neg hshort) r'

/-- **A frame is read from the front of a stream**, and no byte after it. -/
theorem readFramed_content (hinv : Inverts M) (hframed : Framed message)
    (h : content r = frame message ++ bytes) :
    ∃ r', AsyncRead.readFramed M r = (.ok message, r') ∧ content r' = bytes ∧ ending r' = ending r := by
  have hlen : (Message.encode message).length < 2 ^ 32 := Nat.lt_of_le_of_lt hframed (by decide)
  obtain ⟨r₁, hcontent₁, hending₁, -, hread⟩ := readFramed_length M h
  rw [fromBeBytes_toBeBytes hlen] at hread
  change content r₁ = Message.encode message ++ bytes at hcontent₁
  have henough : (Message.encode message).length ≤ (content r₁).length := by
    rw [hcontent₁]
    simp
  obtain ⟨r₂, hbody, hcontent₂, hending₂⟩ :=
    @readExact_of_le _ _ _ IoErrorKind.unexpectedEof _ _ henough
  rw [hcontent₁] at hbody hcontent₂
  refine ⟨r₂, ?_, ?_, hending₂.trans hending₁⟩
  · refine (hread (Nat.not_lt_of_le hframed)).trans ((Reading.bind_of_ok hbody).trans ?_)
    rw [List.take_left, hinv message]
    rfl
  · rw [hcontent₂]
    simp

/-- **A written list of messages is read back**, and no byte after it. -/
theorem readMessages_writeMessages (hinv : Inverts M) (hframed : ∀ message ∈ messages, Framed message)
    (h : content r = messages.flatMap frame ++ bytes) :
    ∃ r', AsyncRead.readMessages M messages.length r = (.ok messages, r') ∧ content r' = bytes := by
  induction messages generalizing r with
  | nil => exact ⟨r, rfl, h⟩
  | cons message messages ih =>
    rw [List.flatMap_cons, List.append_assoc] at h
    obtain ⟨r₁, hread, hcontent, -⟩ := readFramed_content hinv (hframed message List.mem_cons_self) h
    obtain ⟨r', hrest, hend⟩ := ih (fun m hm => hframed m (List.mem_cons_of_mem message hm)) hcontent
    exact ⟨r', (Reading.bind_of_ok hread).trans (Reading.bind_of_ok hrest), hend⟩

/-- **A list of messages that is cut off** is read up to the cut: some first messages, and then the end of
the stream. -/
theorem readMessages_take (hinv : Inverts M) (hframed : ∀ message ∈ messages, Framed message) {n : Nat}
    (hn : n < (messages.flatMap frame).length) (h : content r = (messages.flatMap frame).take n)
    (hending : ending r = .ok ()) :
    ∃ k < messages.length, ∃ r', AsyncRead.readMessages M k r = (.ok (messages.take k), r')
      ∧ (AsyncRead.readFramed M r').1 = .error .unexpectedEof := by
  induction messages generalizing r n with
  | nil => exact absurd hn (Nat.not_lt_zero n)
  | cons message messages ih =>
    rw [List.flatMap_cons] at h hn
    rw [List.length_append] at hn
    have hhere := hframed message List.mem_cons_self
    by_cases hcut : n < (frame message).length
    case pos =>
      -- the cut is in the first frame
      rw [List.take_append_of_le_length hcut.le] at h
      refine ⟨0, Nat.succ_pos _, r, rfl, ?_⟩
      match hread : AsyncRead.readFramed M r with
      | (.error err, r') =>
        have herror := follows_readFramed.of_error hending hread
        rw [h, readFramed_take hhere hcut] at herror
        exact congrArg Except.error (Except.error.inj herror).symm
      | (.ok message', r') =>
        have hok := (follows_readFramed.of_ok hending hread).1
        rw [h, readFramed_take hhere hcut] at hok
        cases hok
    case neg =>
      have hle := Nat.le_of_not_lt hcut
      rw [List.take_append, List.take_of_length_le hle] at h
      obtain ⟨r₁, hread, hcontent, hending₁⟩ := readFramed_content hinv hhere h
      obtain ⟨k, hk, r', hrest, heof⟩ := ih (fun m hm => hframed m (List.mem_cons_of_mem message hm))
        (by omega) hcontent (hending₁.trans hending)
      exact ⟨k + 1, Nat.succ_lt_succ hk, r',
        (Reading.bind_of_ok hread).trans (Reading.bind_of_ok hrest), heof⟩

/-- **Framing is self-delimiting.**  A message is written if its encoding fits a frame.  What was written is
read back, message by message, with nothing read of what follows it; of a stream that is cut short the
messages before the cut are read, and then the end is found.  A length above the cap is refused when its
four bytes are read. -/
theorem framing_delimits (hinv : Inverts M) :
    (∀ (written : Bytes) (message : M),
      (writeFramed written message).1 = .ok () ↔ (Message.encode message).length ≤ maxFrameBytes)
    ∧ (∀ messages : List M, (∀ message ∈ messages, ∀ written, (writeFramed written message).1 = .ok ()) →
      (∀ (r : R) (bytes : Bytes), content r = writeMessages [] messages ++ bytes →
        ∃ r', AsyncRead.readMessages M messages.length r = (.ok messages, r') ∧ content r' = bytes)
      ∧ ∀ r : R, content r <+: writeMessages [] messages → content r ≠ writeMessages [] messages →
          ending r = .ok () →
        ∃ k < messages.length, ∃ r', AsyncRead.readMessages M k r = (.ok (messages.take k), r')
          ∧ (AsyncRead.readFramed M r').1 = .error .unexpectedEof)
    ∧ ∀ (r : R) (b₀ b₁ b₂ b₃ : UInt8) (bytes : Bytes), content r = b₀ :: b₁ :: b₂ :: b₃ :: bytes →
        fromBeBytes b₀ b₁ b₂ b₃ > maxFrameBytes →
      ∃ r', AsyncRead.readFramed M r = (.error .invalidData, r') ∧ content r' = bytes := by
  refine ⟨writeFramed_eq_ok_iff, fun messages haccepted => ?_, fun r b₀ b₁ b₂ b₃ bytes h hlong => ?_⟩
  · have hframed : ∀ message ∈ messages, Framed message := fun message hm =>
      (writeFramed_eq_ok_iff [] message).mp (haccepted message hm [])
    have hwritten : writeMessages [] messages = messages.flatMap frame := writeMessages_of_framed hframed []
    rw [hwritten]
    refine ⟨fun r bytes h => readMessages_writeMessages hinv hframed h, fun r hfront hcut hending => ?_⟩
    have htake := List.prefix_iff_eq_take.mp hfront
    have hlt : (content r).length < (messages.flatMap frame).length :=
      lt_of_le_of_ne hfront.length_le fun hlen => hcut (hfront.eq_of_length hlen)
    exact readMessages_take hinv hframed hlt htake hending
  · obtain ⟨r', hcontent, -, hread, -⟩ := readFramed_length M h
    exact ⟨r', hread hlong, hcontent⟩

/-- A subscription and its end on a stream that comes in pieces, with two more bytes behind them. -/
theorem framing_delimits_subscription :
    let _ := Proto3.bcast
    let messages := [Bcast.mk (some (.channelSubscribe "c")), Bcast.mk (some (.channelUnsubscribe "c"))]
    let r := RecvStream.mk [[0, 0], [], [0, 5, 18, 3, 10, 1, 99, 0, 0, 0, 5], [26, 3, 10, 1, 99, 0, 0]]
    ∃ r', AsyncRead.readMessages Bcast 2 r = (.ok messages, r') ∧ content r' = [0, 0] := by
  intro _ messages r
  obtain ⟨-, hread, -⟩ := @framing_delimits Bcast _ RecvStream _
    (Proto3.message_inverts Proto3.bcastOf_fields)
  have haccepted : ∀ message ∈ messages, ∀ written, (writeFramed written message).1 = .ok () := by
    intro message hm written
    refine (writeFramed_eq_ok_iff written message).mpr ?_
    simp only [messages, List.mem_cons, List.not_mem_nil, or_false] at hm
    rcases hm with rfl | rfl
    · exact of_decide_eq_true (by decide +kernel)
    · exact of_decide_eq_true (by decide +kernel)
  exact (hread messages haccepted).1 r [0, 0] (by decide +kernel)

end Frames

/-! ## Payloads under any buffers -/

namespace ChunkPayloadReader

variable {R : Type}

/-- Poll with one buffer after the other, whatever the answers: the bytes put into them, and the reader
afterwards.  A buffer is its capacity. -/
def polls [AsyncRead IoErrorKind R] (payload : ChunkPayloadReader R) :
    List Nat → Bytes × ChunkPayloadReader R
  | [] => ([], payload)
  | capacity :: buffers =>
    let (answer, payload) := payload.pollRead capacity
    let (delivered, payload) := payload.polls buffers
    (answer.bytes ++ delivered, payload)

/-- What a poll of a payload does, by the answer of the stream. -/
inductive PollCases [AsyncRead IoErrorKind R] (capacity : Nat) (payload : ChunkPayloadReader R) :
    Poll (Except IoErrorKind Bytes) → ChunkPayloadReader R → Prop
  | done (hdone : payload.remaining = 0) : PollCases capacity payload (.ready (.ok [])) payload
  | pending {reader} (hmore : payload.remaining ≠ 0)
      (hpoll : AsyncRead.pollRead payload.reader (min payload.remaining capacity) = (.pending, reader)) :
    PollCases capacity payload .pending ⟨reader, payload.remaining⟩
  | failed {reader err} (hmore : payload.remaining ≠ 0)
      (hpoll : AsyncRead.pollRead payload.reader (min payload.remaining capacity)
        = (.ready (.error err), reader)) :
    PollCases capacity payload (.ready (.error err)) ⟨reader, payload.remaining⟩
  | short {reader} (hmore : payload.remaining ≠ 0)
      (hpoll : AsyncRead.pollRead payload.reader (min payload.remaining capacity)
        = (.ready (.ok []), reader)) :
    PollCases capacity payload (.ready (.error .unexpectedEof)) ⟨reader, payload.remaining⟩
  | read {reader data} (hmore : payload.remaining ≠ 0) (hsome : data ≠ [])
      (hpoll : AsyncRead.pollRead payload.reader (min payload.remaining capacity)
        = (.ready (.ok data), reader)) :
    PollCases capacity payload (.ready (.ok data)) ⟨reader, payload.remaining - data.length⟩

/-- **One poll of a payload**, by how much is due and what the stream answers. -/
theorem pollRead_cases [AsyncRead IoErrorKind R] (payload : ChunkPayloadReader R) (capacity : Nat) :
    PollCases capacity payload (payload.pollRead capacity).1 (payload.pollRead capacity).2 := by
  obtain ⟨reader, remaining⟩ := payload
  unfold pollRead
  by_cases hzero : remaining = 0
  · rw [if_pos hzero]
    exact .done hzero
  · rw [if_neg hzero]
    match hpoll : AsyncRead.pollRead reader (min remaining capacity) with
    | (.pending, reader') =>
      simp only [hpoll]
      exact .pending hzero hpoll
    | (.ready (.error err), reader') =>
      simp only [hpoll]
      exact .failed hzero hpoll
    | (.ready (.ok []), reader') =>
      simp only [hpoll, List.length_nil, if_true]
      exact .short hzero hpoll
    | (.ready (.ok (byte :: data)), reader') =>
      simp only [hpoll, List.length_cons, Nat.add_one_ne_zero, if_false]
      exact .read hzero (List.cons_ne_nil byte data) hpoll

/-- When nothing remains, a poll finds a clean end. -/
theorem pollRead_of_done [AsyncRead IoErrorKind R] {payload : ChunkPayloadReader R}
    (hdone : payload.remaining = 0) (capacity : Nat) :
    payload.pollRead capacity = (.ready (.ok []), payload) :=
  if_pos hdone

variable [LawfulEmptyRead IoErrorKind R] {stream delivered : Bytes} {d : Nat} {payload : ChunkPayloadReader R}

/-- The payload's reader against the stream `stream` and the declared length `d`: what it delivered and what
the stream still has are the stream, and what it delivered and what remains are the declared bytes. -/
structure Progress (stream : Bytes) (d : Nat) (delivered : Bytes) (payload : ChunkPayloadReader R) : Prop where
  front : stream = delivered ++ LawfulAsyncRead.content payload.reader
  count : delivered.length + payload.remaining = d

/-- What was delivered is the front of the stream. -/
theorem Progress.delivered_eq (h : Progress stream d delivered payload) :
    delivered = stream.take (d - payload.remaining) := by
  rw [h.front, ← h.count, Nat.add_sub_cancel, List.take_left]

/-- The rest of the stream is left on it. -/
theorem Progress.rest_eq (h : Progress stream d delivered payload) :
    LawfulAsyncRead.content payload.reader = stream.drop (d - payload.remaining) := by
  rw [h.front, ← h.count, Nat.add_sub_cancel, List.drop_left]

theorem Progress.remaining_le (h : Progress stream d delivered payload) : payload.remaining ≤ d := by
  rw [← h.count]
  exact Nat.le_add_left _ _

/-- A poll keeps the progress. -/
theorem Progress.pollRead (h : Progress stream d delivered payload) (capacity : Nat) :
    Progress stream d (delivered ++ (payload.pollRead capacity).1.bytes) (payload.pollRead capacity).2 := by
  obtain ⟨hfront, hcount⟩ := h
  -- the stream gives its bytes from the front, no more than were asked for
  have hstream := content_pollRead payload.reader (min payload.remaining capacity)
  have hpoll := pollRead_cases payload capacity
  generalize (payload.pollRead capacity).1 = answer at hpoll ⊢
  generalize (payload.pollRead capacity).2 = after at hpoll ⊢
  cases hpoll with
  | done =>
    rw [Poll.bytes, List.append_nil]
    exact ⟨hfront, hcount⟩
  | pending hmore hpoll | failed hmore hpoll | short hmore hpoll =>
    rw [hpoll] at hstream
    rw [Poll.bytes, List.append_nil]
    exact ⟨hfront.trans (congrArg (delivered ++ ·) hstream.1), hcount⟩
  | @read reader data hmore hsome hpoll =>
    rw [hpoll] at hstream
    obtain ⟨hcontent, hfits⟩ := hstream
    change _ = data ++ _ at hcontent
    change data.length ≤ _ at hfits
    refine ⟨?_, ?_⟩
    · rw [hfront, hcontent, Poll.bytes, List.append_assoc]
    · rw [Poll.bytes, List.length_append]
      dsimp only
      omega

/-- **The run lemma**: so do polls with any buffers. -/
theorem Progress.polls (h : Progress stream d delivered payload) (buffers : List Nat) :
    Progress stream d (delivered ++ (payload.polls buffers).1) (payload.polls buffers).2 := by
  induction buffers generalizing delivered payload with
  | nil => rwa [ChunkPayloadReader.polls, List.append_nil]
  | cons capacity buffers ih =>
    have hrest := ih (h.pollRead capacity)
    rwa [List.append_assoc] at hrest

/-- By induction on the polls: a payload is delivered from the front. -/
theorem polls_progress (r : R) (d : Nat) (buffers : List Nat) :
    Progress (LawfulAsyncRead.content r) d ((mk r d).polls buffers).1 ((mk r d).polls buffers).2 := by
  have hstart : Progress (LawfulAsyncRead.content r) d [] (mk r d) :=
    ⟨(List.nil_append _).symm, Nat.zero_add d⟩
  exact hstart.polls buffers

/-- **Polls with these buffers read exactly the declared payload** of a stream.  At any time what was
delivered are the stream's first bytes, and no others were taken from it; a poll that is told the stream is
too short is told so at the end of a stream that is; and when all is delivered, a poll finds a clean end. -/
structure ReadsExactly (r : R) (d : Nat) (buffers : List Nat) : Prop where
  delivered : ∀ before, before <+: buffers →
    let (delivered, payload) := (mk r d).polls before
    payload.remaining ≤ d ∧ delivered = (LawfulAsyncRead.content r).take (d - payload.remaining)
      ∧ LawfulAsyncRead.content payload.reader = (LawfulAsyncRead.content r).drop (d - payload.remaining)
  truncated : ∀ before capacity, before ++ [capacity] <+: buffers →
    let payload := ((mk r d).polls before).2
    (payload.pollRead capacity).1 = .ready (.error .unexpectedEof) →
    AtEnd payload.reader ∧ (LawfulAsyncRead.content r).length < d
  complete : ∀ before capacity, before ++ [capacity] <+: buffers →
    let (delivered, payload) := (mk r d).polls before
    delivered.length = d → payload.pollRead capacity = (.ready (.ok []), payload)

/-- A poll with an empty buffer, while bytes of the payload are due, that the stream answers at once though
it is not at its end. -/
structure Starved (payload : ChunkPayloadReader R) (capacity : Nat) : Prop where
  empty : capacity = 0
  due : payload.remaining ≠ 0
  answered : (AsyncRead.pollRead payload.reader 0).1 = .ready (.ok [])
  goesOn : ¬ AtEnd payload.reader

/-- A starved poll is told that the stream is too short. -/
theorem Starved.eof {capacity : Nat} (h : Starved payload capacity) :
    (payload.pollRead capacity).1 = .ready (.error .unexpectedEof) := by
  obtain ⟨rfl, hdue, hanswered, -⟩ := h
  have hpoll := pollRead_cases payload 0
  generalize (payload.pollRead 0).1 = answer at hpoll ⊢
  generalize (payload.pollRead 0).2 = after at hpoll
  rw [← Nat.min_zero payload.remaining] at hanswered
  cases hpoll with
  | done hdone => exact absurd hdone hdue
  | short => rfl
  | pending _ hpoll | failed _ hpoll =>
    rw [hpoll] at hanswered
    cases hanswered
  | read _ hsome hpoll =>
    rw [hpoll] at hanswered
    exact absurd (Except.ok.inj (Poll.ready.inj hanswered)) hsome

/-- **When the stream is found too short**: at its end, or by a starved poll. -/
theorem atEnd_of_eof {capacity : Nat} (h : (payload.pollRead capacity).1 = .ready (.error .unexpectedEof))
    (hfed : ¬ Starved payload capacity) : payload.remaining ≠ 0 ∧ AtEnd payload.reader := by
  have hpoll := pollRead_cases payload capacity
  rw [h] at hpoll
  generalize (payload.pollRead capacity).2 = after at hpoll
  cases hpoll with
  | failed hmore hpoll => exact ⟨hmore, atEnd_of_error (congrArg Prod.fst hpoll)⟩
  | short hmore hpoll =>
    refine ⟨hmore, ?_⟩
    by_contra hgoesOn
    rcases Nat.eq_zero_or_pos capacity with rfl | hcapacity
    · rw [Nat.min_zero] at hpoll
      exact hfed ⟨rfl, hmore, congrArg Prod.fst hpoll, hgoesOn⟩
    · exact hgoesOn (atEnd_of_nil (by omega) (congrArg Prod.fst hpoll))

/-- **Payloads are read exactly, but for empty buffers.**  For every reader and declared length, however the
stream comes and whatever the buffers, the payload is read exactly if and only if no poll with an empty
buffer, while bytes of it are due, is answered at once by a stream that goes on. -/
theorem polls_readsExactly_iff (r : R) (d : Nat) (buffers : List Nat) :
    ReadsExactly r d buffers ↔ ∀ before capacity, before ++ [capacity] <+: buffers →
      ¬ Starved ((mk r d).polls before).2 capacity := by
  constructor
  · intro h before capacity hpre hstarved
    exact hstarved.goesOn (h.truncated before capacity hpre hstarved.eof).1
  · intro h
    refine ⟨fun before _ => ?_, fun before capacity hpre htruncated => ?_,
      fun before capacity _ hdone => ?_⟩
    · have hprogress := polls_progress r d before
      exact ⟨hprogress.remaining_le, hprogress.delivered_eq, hprogress.rest_eq⟩
    · have hprogress := polls_progress r d before
      obtain ⟨hmore, hend⟩ := atEnd_of_eof htruncated (h before capacity hpre)
      have hlen := congrArg List.length hprogress.front
      rw [hend.content_eq, List.append_nil] at hlen
      exact ⟨hend, by have := hprogress.count; omega⟩
    · have hcount := (polls_progress r d before).count
      exact pollRead_of_done (by omega) capacity

/-- A poll with an empty buffer, before the one byte of the payload is read. -/
theorem not_readsExactly_empty_buffer : ¬ ReadsExactly (RecvStream.mk [[7]]) 1 [0] := by
  intro h
  have htold : ((mk (RecvStream.mk [[7]]) 1).pollRead 0).1 = .ready (.error .unexpectedEof) := by rfl
  have hended := (h.truncated [] 0 (List.prefix_refl [0]) htold).2
  exact absurd hended (by decide)

end ChunkPayloadReader

end Ethp2p
