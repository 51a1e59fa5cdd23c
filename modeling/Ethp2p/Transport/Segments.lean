/-
# Ethp2p.Transport.Segments — inbound streams, poll by poll (`ethp2p-transport/src/lib.rs`).

`Transport.Streams` reads a stream as the bytes it has.  Here `read_stream` reads it from an `AsyncRead`,
as the code does, and `readStream_eq` says that the events and the result are those of the bytes: how
the network cuts the stream up makes no difference.

For a chunk's stream this gives the round trip (`readStream_sendChunk`): what `send_chunk` wrote is read
back from any segmentation of it, whatever follows is left, and no strict prefix of it gives an event.
-/
import Ethp2p.Transport.Carries
import Ethp2p.Wire.Reading

namespace Ethp2p

open LawfulAsyncRead

variable [Message Bcast] [Message Sess] [Message Header] [Message ChunkIdent]

/-! ## Reading -/

namespace AsyncRead

section Readers

variable {R : Type} [AsyncRead IoErrorKind R]

omit [Message Bcast] [Message Sess] [Message Header] [Message ChunkIdent] in
/-- A frame that was read took polls. -/
theorem left_readFramed {M : Type} [Message M] {message : M} {r r' : R}
    (h : readFramed M r = (.ok message, r')) : left r' < left r := by
  obtain ⟨data, r₁, hpre, h⟩ := Reading.bind_eq_ok h
  have hlt := (left_of_pollExact hpre).2 (by decide)
  match data, h with
  | [b₀, b₁, b₂, b₃], h =>
    dsimp only at h
    split at h
    case isTrue => cases h
    case isFalse =>
      obtain ⟨buf, r₂, hbuf, h⟩ := Reading.bind_eq_ok h
      have hle := (left_of_pollExact hbuf).1
      cases hdecode : (Message.decode buf : Except String M) with
      | error err =>
        rw [hdecode] at h
        cases h
      | ok message' =>
        rw [hdecode] at h
        obtain ⟨-, rfl⟩ := Prod.mk.inj h
        exact hle.trans_lt hlt

/-- Read the frames of a BCAST stream. -/
def readBcast (peer : PeerId) (expected : Option String) (r : R) :
    (List NetEvent × Except IoErrorKind Unit) × R :=
  match _h : readFramed Bcast r with
  | (.error .unexpectedEof, r') => (([], .ok ()), r')
  | (.error err, r') => (([], .error err), r')
  | (.ok frame, r') =>
    -- a spoofed handshake closes the connection
    if spoofs expected frame then
      (([], .ok ()), r')
    else
      let ((events, result), r'') := readBcast peer expected r'
      (((bcastEvent peer frame).toList ++ events, result), r'')
termination_by left r
decreasing_by exact left_readFramed _h

/-- Read the frames of a SESS stream, after `count` of them; `keyed` once its session is known. -/
def readSess (peer : PeerId) (stops : Nat → Bool) (count : Nat) (keyed : Bool) (r : R) :
    (List NetEvent × Except IoErrorKind Unit) × R :=
  if keyed && stops count then
    (([], .ok ()), r)
  else
    match _h : readFramed Sess r with
    | (.error .unexpectedEof, r') => (([], .ok ()), r')
    | (.error err, r') => (([], .error err), r')
    | (.ok frame, r') =>
      let event := sessEvent peer frame
      let ((events, result), r'') := readSess peer stops (count + 1) (keyed || event.isSome) r'
      ((event.toList ++ events, result), r'')
termination_by left r
decreasing_by exact left_readFramed _h

/-- Read a CHUNK stream up to the end of its payload. -/
def chunkEvent (peer : PeerId) (buffers : Nat → Nat) : Reading IoErrorKind R NetEvent := do
  let header ← readChunkStream
  match (Message.decode header.chunkId : Except String ChunkIdent) with
  | .error _ => throw .invalidData
  | .ok ident =>
    match u32TryFrom ident.index with
    | none => throw .invalidData
    | some chunkId =>
      let payload ← readPayload buffers header
      pure (.chunk peer header.channel header.messageId chunkId payload)

/-- Read a CHUNK stream. -/
def readChunkEvent (peer : PeerId) (buffers : Nat → Nat) (r : R) :
    (List NetEvent × Except IoErrorKind Unit) × R :=
  match chunkEvent peer buffers r with
  | (.error err, r') => (([], .error err), r')
  | (.ok event, r') => (([event], .ok ()), r')

/-- Read a single inbound stream: the events it emits, how it ends, and what is left of it. -/
def readStream (peer : PeerId) (expected : Option String) (stops : Nat → Bool) (buffers : Nat → Nat) (r : R) :
    (List NetEvent × Except IoErrorKind Unit) × R :=
  match readSelector r with
  | (.error err, r') => (([], .error err), r')
  | (.ok .bcast, r') => readBcast peer expected r'
  | (.ok .sess, r') => readSess peer stops 0 false r'
  | (.ok .chunk, r') => readChunkEvent peer buffers r'
  | (.ok .unspecified, r') => (([], .ok ()), r')

end Readers

end AsyncRead

/-! ## The segments make no difference -/

section Follows

variable {R : Type} [LawfulAsyncRead IoErrorKind R] {peer : PeerId} {expected : Option String}
  {stops : Nat → Bool} {buffers : Nat → Nat}

omit [Message Bcast] [Message Sess] in
theorem follows_chunkEvent (peer : PeerId) (hbuffers : ∀ t, 0 < buffers t) :
    Follows (AsyncRead.chunkEvent peer buffers : Reading IoErrorKind R NetEvent) (chunkEvent peer) := by
  intro r hending
  refine (follows_readChunkStream r hending).bind (fun header r' hending' hheader => ?_) fun err herr => ?_
  · rw [chunkEvent, hheader]
    dsimp only
    cases (Message.decode header.chunkId : Except String ChunkIdent) with
    | error err => exact .error
    | ok ident =>
      dsimp only
      cases u32TryFrom ident.index with
      | none => exact .error
      | some chunkId =>
        refine (follows_readPayload hbuffers header r' hending').bind
          (fun payload r'' hending'' hpayload => ?_) fun err herr => ?_
        · dsimp only
          rw [hpayload]
          exact .ok hending''
        · dsimp only
          rw [herr]
  · rw [chunkEvent, herr]

omit [Message Bcast] [Message Sess] in
theorem readChunkEvent_eq (hbuffers : ∀ t, 0 < buffers t) {r : R} (hending : ending r = .ok ()) :
    (AsyncRead.readChunkEvent peer buffers r).1 = readChunkEvent peer (content r) := by
  have hfollows := follows_chunkEvent (R := R) peer hbuffers
  rw [AsyncRead.readChunkEvent, readChunkEvent]
  rcases hread : AsyncRead.chunkEvent peer buffers r with ⟨err | event, r'⟩
  · rw [hfollows.of_error hending hread]
  · rw [(hfollows.of_ok hending hread).1]

omit [Message Sess] [Message Header] [Message ChunkIdent] in
/-- What a BCAST stream's reading does first, if the fuel is enough for all its frames. -/
theorem readBcast_eq_match {bytes : Bytes} {fuel : Nat} (hfuel : bytes.length ≤ fuel) :
    readBcast peer expected fuel bytes =
      match readFramed Bcast bytes with
      | .error .unexpectedEof => ([], .ok ())
      | .error err => ([], .error err)
      | .ok (frame, rest) =>
        if spoofs expected frame then
          ([], .ok ())
        else
          let (events, result) := readBcast peer expected (fuel - 1) rest
          ((bcastEvent peer frame).toList ++ events, result) := by
  cases fuel with
  | zero =>
    rw [List.length_eq_zero_iff.mp (Nat.le_zero.mp hfuel)]
    rfl
  | succ fuel => rfl

omit [Message Sess] [Message Header] [Message ChunkIdent] in
theorem readBcast_eq {r : R} (hending : ending r = .ok ()) {fuel : Nat} (hfuel : (content r).length ≤ fuel) :
    (AsyncRead.readBcast peer expected r).1 = readBcast peer expected fuel (content r) := by
  have hfollows := follows_readFramed (R := R) (M := Bcast)
  rw [readBcast_eq_match hfuel]
  fun_induction AsyncRead.readBcast peer expected r generalizing fuel with
  | case1 r r' h => rw [hfollows.of_error hending h]
  | case2 r err r' hne h =>
    rw [hfollows.of_error hending h]
    cases err with
    | unexpectedEof => exact absurd rfl hne
    | invalidInput | invalidData => rfl
  | case3 r frame r' h hspoofs =>
    rw [(hfollows.of_ok hending h).1]
    exact (if_pos hspoofs).symm
  | case4 r frame r' h hspoofs events result r'' hrest ih =>
    obtain ⟨hread, hending'⟩ := hfollows.of_ok hending h
    have hlt := length_of_readFramed hread
    have hfuel' : (content r').length ≤ fuel - 1 := by omega
    have hevents := ih hending' hfuel'
    rw [hrest, ← readBcast_eq_match hfuel'] at hevents
    rw [hread]
    dsimp only
    rw [if_neg hspoofs, ← hevents]

omit [Message Bcast] [Message Header] [Message ChunkIdent] in
/-- What a SESS stream's reading does first, if the fuel is enough for all its frames. -/
theorem readSess_eq_match {bytes : Bytes} {fuel count : Nat} {keyed : Bool} (hfuel : bytes.length ≤ fuel) :
    readSess peer stops fuel count keyed bytes =
      if keyed && stops count then
        ([], .ok ())
      else
        match readFramed Sess bytes with
        | .error .unexpectedEof => ([], .ok ())
        | .error err => ([], .error err)
        | .ok (frame, rest) =>
          let event := sessEvent peer frame
          let (events, result) :=
            readSess peer stops (fuel - 1) (count + 1) (keyed || event.isSome) rest
          (event.toList ++ events, result) := by
  cases fuel with
  | zero =>
    rw [List.length_eq_zero_iff.mp (Nat.le_zero.mp hfuel)]
    exact (ite_self _).symm
  | succ fuel => rfl

omit [Message Bcast] [Message Header] [Message ChunkIdent] in
theorem readSess_eq {r : R} (hending : ending r = .ok ()) {fuel count : Nat} {keyed : Bool}
    (hfuel : (content r).length ≤ fuel) :
    (AsyncRead.readSess peer stops count keyed r).1 = readSess peer stops fuel count keyed (content r) := by
  have hfollows := follows_readFramed (R := R) (M := Sess)
  rw [readSess_eq_match hfuel]
  fun_induction AsyncRead.readSess peer stops count keyed r generalizing fuel with
  | case1 count keyed r hstops => exact (if_pos hstops).symm
  | case2 count keyed r hstops r' h => rw [if_neg hstops, hfollows.of_error hending h]
  | case3 count keyed r hstops err r' hne h =>
    rw [if_neg hstops, hfollows.of_error hending h]
    cases err with
    | unexpectedEof => exact absurd rfl hne
    | invalidInput | invalidData => rfl
  | case4 count keyed r hstops frame r' h event events result r'' hrest ih =>
    obtain ⟨hread, hending'⟩ := hfollows.of_ok hending h
    have hlt := length_of_readFramed hread
    have hfuel' : (content r').length ≤ fuel - 1 := by omega
    have hevents := ih hending' hfuel'
    rw [hrest, ← readSess_eq_match hfuel'] at hevents
    rw [if_neg hstops, hread]
    dsimp only
    rw [← hevents]

/-- **A stream means its bytes**, however they arrive. -/
theorem readStream_eq (hbuffers : ∀ t, 0 < buffers t) {r : R} (hending : ending r = .ok ()) :
    (AsyncRead.readStream peer expected stops buffers r).1 = readStream peer expected stops (content r) := by
  have hfollows := follows_readSelector (R := R)
  rw [AsyncRead.readStream, readStream]
  rcases hread : AsyncRead.readSelector r with ⟨err | protocol, r'⟩
  · rw [hfollows.of_error hending hread]
  · obtain ⟨hselector, hending'⟩ := hfollows.of_ok hending hread
    rw [hselector]
    cases protocol with
    | unspecified => rfl
    | bcast => exact readBcast_eq hending' le_rfl
    | sess => exact readSess_eq hending' le_rfl
    | chunk => exact readChunkEvent_eq hbuffers hending'

end Follows

/-! ## Chunks -/

/-- A chunk's stream that is cut off anywhere gives no event. -/
theorem readStream_take (hheader : Inverts Header) (hident : Inverts ChunkIdent)
    {channel : ChannelId} {messageId : MessageId} {chunkId : Nat} {payload : Bytes}
    (hmax : payload.length ≤ maxChunkDataBytes)
    (hframed : Framed (chunkHeader channel messageId chunkId payload))
    (peer : PeerId) (expected : Option String) (stops : Nat → Bool) {n : Nat}
    (hn : n < (openStream [] .chunk ++ (frame (chunkHeader channel messageId chunkId payload)
      ++ payload)).length) :
    readStream peer expected stops ((openStream [] .chunk
        ++ (frame (chunkHeader channel messageId chunkId payload) ++ payload)).take n)
      = ([], .error .unexpectedEof) := by
  rw [List.length_append, List.length_append] at hn
  -- with no byte there is not even a selector
  cases n with
  | zero => rfl
  | succ n =>
    have htake : (openStream [] .chunk
          ++ (frame (chunkHeader channel messageId chunkId payload) ++ payload)).take (n + 1)
        = openStream [] .chunk
          ++ (frame (chunkHeader channel messageId chunkId payload) ++ payload).take n := rfl
    rw [htake, readStream, readSelector_openStream (by decide)]
    dsimp only
    rw [readChunkEvent]
    by_cases hshort : n < (frame (chunkHeader channel messageId chunkId payload)).length
    · -- cut off in the header
      rw [List.take_append_of_le_length hshort.le, chunkEvent, readChunkStream,
        readFramed_take hframed hshort]
    · -- cut off in the payload
      have hpayload : (payload.take (n - (frame (chunkHeader channel messageId chunkId payload)).length)).length
          < (chunkHeader channel messageId chunkId payload).dataLength := by
        have hselector : (openStream [] .chunk).length = 1 := rfl
        rw [← chunkHeader_dataLength channel messageId chunkId hmax, List.length_take]
        omega
      rw [List.take_append, List.take_of_length_le (Nat.le_of_not_lt hshort),
        chunkEvent_frame peer hheader hident hframed hmax, readPayload, takeExact_of_lt hpayload]

/-- **A chunk's stream** is written, and read back from any segmentation of it, whatever follows being left;
from any segmentation of a strict prefix of it, no event is read. -/
theorem readStream_writeChunk (hheader : Inverts Header) (hident : Inverts ChunkIdent)
    {channel : ChannelId} {messageId : MessageId} {chunkId : Nat} {payload : Bytes} (hid : chunkId < 2 ^ 31)
    (hmax : payload.length ≤ maxChunkDataBytes)
    (hframed : Framed (chunkHeader channel messageId chunkId payload))
    (peer : PeerId) (expected : Option String) (stops : Nat → Bool) {buffers : Nat → Nat}
    (hbuffers : ∀ t, 0 < buffers t) :
    ∃ bytes, writeChunk [] (chunkHeader channel messageId chunkId payload) payload = (.ok (), bytes)
      ∧ (∀ segments more, segments.flatten = bytes ++ more → ∃ rest,
        AsyncRead.readStream peer expected stops buffers (RecvStream.mk segments)
            = (([.chunk peer channel messageId chunkId payload], .ok ()), ⟨rest⟩)
          ∧ rest.flatten = more)
      ∧ ∀ n < bytes.length, ∀ segments, segments.flatten = bytes.take n →
        (AsyncRead.readStream peer expected stops buffers (RecvStream.mk segments)).1
          = ([], .error .unexpectedEof) := by
  have hlen := chunkHeader_dataLength channel messageId chunkId hmax
  -- the writer cannot refuse: the header is framed and the length is the one it states
  have hwritten := writeChunk_of_fits hframed hlen hmax []
  rw [List.append_assoc] at hwritten
  refine ⟨_, hwritten, fun segments more hsegments => ?_, fun n hn segments hsegments => ?_⟩
  · have hselector : readSelector (content (RecvStream.mk segments))
        = .ok (.chunk, frame (chunkHeader channel messageId chunkId payload) ++ (payload ++ more)) := by
      show readSelector segments.flatten = _
      rw [hsegments, List.append_assoc, List.append_assoc, readSelector_openStream (by decide)]
    -- the selector is read first, and the chunk from what it leaves
    obtain ⟨r, hread, hcontent, hending⟩ := follows_readSelector.reads rfl hselector
    have hchunk := chunkEvent_frame peer hheader hident hframed hmax (payload ++ more)
    rw [readPayload_append hlen, if_pos hid, ← hcontent] at hchunk
    obtain ⟨⟨rest⟩, hread', hcontent', -⟩ := (follows_chunkEvent peer hbuffers).reads hending hchunk
    refine ⟨rest, ?_, hcontent'⟩
    rw [AsyncRead.readStream, hread]
    dsimp only
    rw [AsyncRead.readChunkEvent, hread']
  · rw [readStream_eq hbuffers rfl]
    show readStream peer expected stops segments.flatten = _
    rw [hsegments]
    exact readStream_take hheader hident hmax hframed peer expected stops hn

omit [Message Bcast] [Message Sess] [Message Header] [Message ChunkIdent] in
/-- A chunk of three bytes, read two bytes at a time. -/
theorem readStream_writeChunk_three :
    let _ := Proto3.bcast
    let _ := Proto3.sess
    let _ := Proto3.header
    let _ := Proto3.ident
    ∃ bytes, writeChunk [] (chunkHeader "c" "m" 3 [7, 8, 9]) [7, 8, 9] = (.ok (), bytes)
      ∧ (∀ segments more, segments.flatten = bytes ++ more → ∃ rest,
        AsyncRead.readStream 1 none (fun _ => false) (fun _ => 2) (RecvStream.mk segments)
            = (([.chunk 1 "c" "m" 3 [7, 8, 9]], .ok ()), ⟨rest⟩)
          ∧ rest.flatten = more)
      ∧ ∀ n < bytes.length, ∀ segments, segments.flatten = bytes.take n →
        (AsyncRead.readStream 1 none (fun _ => false) (fun _ => 2) (RecvStream.mk segments)).1
          = ([], .error .unexpectedEof) := by
  intro _ _ _ _
  exact readStream_writeChunk (Proto3.message_inverts Proto3.headerOf_fields) Proto3.ident_inverts
    (by decide) (by decide) (of_decide_eq_true (by decide +kernel)) 1 none (fun _ => false) (fun _ => by decide)

end Ethp2p
