/-
# Ethp2p.Transport.Carries — which messages QUIC streams carry as the in-process transport does.

`Rendered` says what is on the continued streams after messages that fit: on the control stream all control
messages, in order; on a session's stream its open and updates.  From it, one written message adds to the
events of one stream, and to no other.

It adds the event the in-process transport delivers, except in three cases (`Carried`): a routing update,
for which reading emits nothing; a chunk whose identifier does not fit the `int32` of the wire, which
arrives as the largest one; and control messages to a peer that pinned another identity.
-/
import Ethp2p.Transport.Streams
import Ethp2p.Strategy.Rs.CodecSpec

namespace Ethp2p

variable [Message Bcast] [Message Sess] [Message Header] [Message ChunkIdent]

/-- The message fits the size limits of the wire. -/
def NetSend.Fits : NetSend → Prop
  | .sessionOpen _ channel messageId preamble initialUpdate =>
    Framed (Sess.mk (some (.sessionOpen channel messageId preamble initialUpdate)))
  | .routingUpdate _ _ _ payload => Framed (Sess.mk (some (.routingUpdate payload)))
  | .chunk _ channel messageId chunkId payload _ =>
    Framed (chunkHeader channel messageId chunkId payload) ∧ payload.length ≤ maxChunkDataBytes
  | msg => ∀ message ∈ bcastOf msg, Framed (Bcast.mk (some message))

/-! ## Reading what was written -/

/-- The bytes of control messages. -/
def controlBytes (messages : List BcastMessage) : Bytes :=
  messages.flatMap fun message => frame (Bcast.mk (some message))

/-- The bytes of routing updates. -/
def updateBytes (updates : List Bytes) : Bytes :=
  updates.flatMap fun data => frame (Sess.mk (some (.routingUpdate data)))

omit [Message Bcast] [Message Sess] [Message Header] [Message ChunkIdent] in
theorem length_frame_pos {M : Type} [Message M] (message : M) : 0 < (frame message).length := by
  simp [frame, toBeBytes]

variable {peer : PeerId} {expected : Option String} {stops : Nat → Bool}

omit [Message Sess] [Message Header] [Message ChunkIdent] in
/-- A control stream emits the events of its messages up to the first spoofed handshake. -/
theorem readBcast_controlBytes (hinv : Inverts Bcast) (messages : List BcastMessage)
    (hframed : ∀ message ∈ messages, Framed (Bcast.mk (some message))) {fuel : Nat}
    (hfuel : (controlBytes messages).length ≤ fuel) :
    (readBcast peer expected fuel (controlBytes messages)).1
      = (messages.takeWhile fun message => !spoofs expected ⟨some message⟩).filterMap
        fun message => bcastEvent peer ⟨some message⟩ := by
  induction messages generalizing fuel with
  | nil => cases fuel <;> rfl
  | cons message messages ih =>
    have hpos := length_frame_pos (Bcast.mk (some message))
    have hbytes : controlBytes (message :: messages)
        = frame (Bcast.mk (some message)) ++ controlBytes messages := List.flatMap_cons
    rw [hbytes, List.length_append] at hfuel
    obtain ⟨fuel, rfl⟩ : ∃ fuel', fuel = fuel' + 1 := ⟨fuel - 1, by omega⟩
    have hread := readFramed_frame hinv (hframed message List.mem_cons_self) (controlBytes messages)
    rw [hbytes, readBcast, hread]
    dsimp only
    cases hspoof : spoofs expected ⟨some message⟩ with
    | true => simp [hspoof]
    | false =>
      have hrest := @ih (fun m hm => hframed m (List.mem_cons_of_mem message hm)) fuel (by omega)
      rw [if_neg Bool.false_ne_true, List.takeWhile_cons_of_pos (by simp [hspoof]),
        List.filterMap_cons]
      dsimp only
      rw [hrest]
      cases bcastEvent peer ⟨some message⟩ <;> rfl

omit [Message Bcast] [Message Header] [Message ChunkIdent] in
/-- Routing updates emit nothing. -/
theorem readSess_updateBytes (peer : PeerId) (stops : Nat → Bool) (hinv : Inverts Sess)
    (updates : List Bytes)
    (hframed : ∀ data ∈ updates, Framed (Sess.mk (some (.routingUpdate data)))) (fuel count : Nat)
    (keyed : Bool) :
    (readSess peer stops fuel count keyed (updateBytes updates)).1 = [] := by
  induction updates generalizing fuel count keyed with
  | nil =>
    cases fuel with
    | zero => rfl
    | succ fuel =>
      unfold readSess
      split <;> rfl
  | cons data updates ih =>
    cases fuel with
    | zero => rfl
    | succ fuel =>
      have hbytes : updateBytes (data :: updates)
          = frame (Sess.mk (some (.routingUpdate data))) ++ updateBytes updates := List.flatMap_cons
      have hread := readFramed_frame hinv (hframed data List.mem_cons_self) (updateBytes updates)
      rw [hbytes, readSess, hread]
      split
      · rfl
      · exact ih (fun d hd => hframed d (List.mem_cons_of_mem data hd)) fuel (count + 1) _

/-- A session's stream emits its open, whatever updates follow. -/
theorem readStream_sess (hinv : Inverts Sess) {channel : ChannelId} {messageId : MessageId}
    {preamble initialUpdate : Bytes} {updates : List Bytes}
    (hopen : Framed (Sess.mk (some (.sessionOpen channel messageId preamble initialUpdate))))
    (hframed : ∀ data ∈ updates, Framed (Sess.mk (some (.routingUpdate data)))) :
    (readStream peer expected stops (openStream [] .sess
      ++ (frame (Sess.mk (some (.sessionOpen channel messageId preamble initialUpdate)))
        ++ updateBytes updates))).1
      = [.sessionOpen peer channel messageId preamble initialUpdate] := by
  have hpos := length_frame_pos (Sess.mk (some (.sessionOpen channel messageId preamble initialUpdate)))
  rw [readStream, readSelector_openStream (by decide)]
  dsimp only
  obtain ⟨fuel, hfuel⟩ : ∃ fuel, (frame (Sess.mk (some (.sessionOpen channel messageId preamble
      initialUpdate))) ++ updateBytes updates).length = fuel + 1 :=
    ⟨_, (Nat.sub_add_cancel (by rw [List.length_append]; omega)).symm⟩
  rw [hfuel, readSess, readFramed_frame hinv hopen]
  have hrest := readSess_updateBytes peer stops hinv updates hframed fuel 1 true
  simp only [Bool.false_and, Bool.false_eq_true, if_false]
  exact congrArg (NetEvent.sessionOpen peer channel messageId preamble initialUpdate :: ·) hrest

/-- A control stream emits its messages' events up to the first spoofed handshake. -/
theorem readStream_bcast (hinv : Inverts Bcast) {messages : List BcastMessage}
    (hframed : ∀ message ∈ messages, Framed (Bcast.mk (some message))) :
    (readStream peer expected stops (openStream [] .bcast ++ controlBytes messages)).1
      = (messages.takeWhile fun message => !spoofs expected ⟨some message⟩).filterMap
        fun message => bcastEvent peer ⟨some message⟩ := by
  rw [readStream, readSelector_openStream (by decide)]
  exact readBcast_controlBytes hinv messages hframed le_rfl

omit [Message Bcast] [Message Sess] in
/-- After a chunk's header, its payload is read and the chunk emitted under the identifier that is on the
wire. -/
theorem chunkEvent_frame (peer : PeerId) (hheader : Inverts Header) (hident : Inverts ChunkIdent)
    {channel : ChannelId} {messageId : MessageId} {chunkId : Nat} {payload : Bytes}
    (hframed : Framed (chunkHeader channel messageId chunkId payload))
    (hmax : payload.length ≤ maxChunkDataBytes) (bytes : Bytes) :
    chunkEvent peer (frame (chunkHeader channel messageId chunkId payload) ++ bytes)
      = match readPayload (chunkHeader channel messageId chunkId payload) bytes with
        | .error err => .error err
        | .ok (payload, bytes) => .ok (.chunk peer channel messageId
            (if chunkId < 2 ^ 31 then chunkId else 2 ^ 31 - 1) payload, bytes) := by
  have hlen := chunkHeader_dataLength channel messageId chunkId hmax
  have hindex : u32TryFrom ((i32TryFrom chunkId).getD Int32.maxValue)
      = some (if chunkId < 2 ^ 31 then chunkId else 2 ^ 31 - 1) := by
    unfold i32TryFrom
    split
    case isTrue h =>
      have hint := toInt_ofNat_of_lt h
      simp [u32TryFrom, hint]
    case isFalse => rfl
  have hdecode : (Message.decode (chunkHeader channel messageId chunkId payload).chunkId
      : Except String ChunkIdent) = .ok ⟨(i32TryFrom chunkId).getD Int32.maxValue⟩ := hident _
  rw [chunkEvent, readChunkStream_frame hheader hframed (hlen ▸ hmax)]
  dsimp only
  rw [hdecode]
  dsimp only
  rw [hindex]
  rfl

/-- A chunk's stream emits the chunk, under the identifier that is on the wire. -/
theorem readStream_chunk (hheader : Inverts Header) (hident : Inverts ChunkIdent)
    {channel : ChannelId} {messageId : MessageId} {chunkId : Nat} {payload : Bytes}
    (hframed : Framed (chunkHeader channel messageId chunkId payload))
    (hmax : payload.length ≤ maxChunkDataBytes) :
    (readStream peer expected stops (openStream [] .chunk
      ++ (frame (chunkHeader channel messageId chunkId payload) ++ payload))).1
      = [.chunk peer channel messageId (if chunkId < 2 ^ 31 then chunkId else 2 ^ 31 - 1) payload] := by
  have hpayload := readPayload_append (chunkHeader_dataLength channel messageId chunkId hmax) []
  rw [List.append_nil] at hpayload
  rw [readStream, readSelector_openStream (by decide)]
  dsimp only
  rw [readChunkEvent, chunkEvent_frame peer hheader hident hframed hmax, hpayload]

/-! ## What is on the continued streams -/

namespace PeerStreams

/-- After these messages, the control stream has all control messages on it, and every session's stream
its open and then updates. -/
structure Rendered (out : PeerStreams) (msgs : List NetSend) : Prop where
  ctrl : ∀ i, out.ctrl = some i → out.streams[i]?
    = some (openStream [] .bcast ++ controlBytes (msgs.filterMap bcastOf))
  noCtrl : out.ctrl = none → msgs.filterMap bcastOf = []
  framed : ∀ message ∈ msgs.filterMap bcastOf, Framed (Bcast.mk (some message))
  sess : ∀ c m i, out.sess[(c, m)]? = some i → ∃ preamble initialUpdate updates,
    Framed (Sess.mk (some (.sessionOpen c m preamble initialUpdate)))
    ∧ (∀ data ∈ updates, Framed (Sess.mk (some (.routingUpdate data))))
    ∧ out.streams[i]? = some (openStream [] .sess
      ++ (frame (Sess.mk (some (.sessionOpen c m preamble initialUpdate))) ++ updateBytes updates))
  distinct : ∀ (key key' : ChannelId × MessageId) (i : Nat), out.sess[key]? = some i →
    out.sess[key']? = some i → key = key'
  opened : ∀ p c m preamble initialUpdate, .sessionOpen p c m preamble initialUpdate ∈ msgs →
    ∃ i, out.sess[(c, m)]? = some i

/-- What is emitted for a stream so far. -/
def emitted (out : PeerStreams) (peer : PeerId) (expected : Option String) (stops : Nat → Bool)
    (i : Nat) : List NetEvent :=
  (out.streams[i]?.map fun bytes => (readStream peer expected stops bytes).1).getD []

/-- Only this stream is changed. -/
def OnlyAt (i : Nat) (out out' : PeerStreams) : Prop := ∀ j, j ≠ i → out'.streams[j]? = out.streams[j]?

variable {out : PeerStreams} {msgs : List NetSend} {msg : NetSend}

omit [Message Header] [Message ChunkIdent] in
/-- The control stream and a session's stream are two streams. -/
theorem Rendered.ctrl_ne_sess (h : Rendered out msgs) {c : ChannelId} {m : MessageId} {i j : Nat}
    (hi : out.ctrl = some i) (hj : out.sess[(c, m)]? = some j) : i ≠ j := by
  rintro rfl
  obtain ⟨preamble, initialUpdate, updates, -, -, hbytes⟩ := h.sess c m i hj
  have hfirst := Option.some.inj ((h.ctrl i hi).symm.trans hbytes)
  simp [openStream, Protocol.discriminant] at hfirst

omit [Message Header] [Message ChunkIdent] in
/-- The stream of a session is one of the streams. -/
theorem Rendered.lt_length (h : Rendered out msgs) {c : ChannelId} {m : MessageId} {j : Nat}
    (hj : out.sess[(c, m)]? = some j) : j < out.streams.length := by
  obtain ⟨preamble, initialUpdate, updates, -, -, hbytes⟩ := h.sess c m j hj
  exact (List.getElem?_eq_some_iff.mp hbytes).1

omit [Message Bcast] [Message Sess] [Message Header] [Message ChunkIdent] in
/-- Opening a stream changes no other. -/
theorem getElem?_concat_of_ne {streams : List Bytes} {j : Nat} (hj : j ≠ streams.length)
    (bytes : Bytes) : (streams ++ [bytes])[j]? = streams[j]? := by
  rcases Nat.lt_or_gt_of_ne hj with hlt | hgt
  · exact List.getElem?_append_left hlt
  · rw [List.getElem?_eq_none (Nat.le_of_lt hgt), List.getElem?_eq_none]
    simpa using hgt

omit [Message Header] [Message ChunkIdent] in
/-- No streams render no messages. -/
theorem new_rendered : Rendered {} [] where
  ctrl _ h := by cases h
  noCtrl _ := rfl
  framed _ h := by cases h
  sess c m i h := by simp at h
  distinct key key' i h := by simp at h
  opened _ _ _ _ _ h := by cases h

omit [Message Header] [Message ChunkIdent] in
/-- A stream opened anew keeps what is on the continued ones. -/
theorem Rendered.appended (h : Rendered out msgs) (hcontrol : bcastOf msg = none)
    (hopen : ∀ p c m preamble initialUpdate, msg ≠ .sessionOpen p c m preamble initialUpdate)
    (bytes : Bytes) :
    Rendered { out with streams := out.streams ++ [bytes] } (msgs ++ [msg]) := by
  have hsame : (msgs ++ [msg]).filterMap bcastOf = msgs.filterMap bcastOf := by
    simp [List.filterMap_append, hcontrol]
  have hkept : ∀ {i : Nat} {old : Bytes}, out.streams[i]? = some old →
      (out.streams ++ [bytes])[i]? = some old := fun {i old} hold => by
    rw [List.getElem?_append_left (List.getElem?_eq_some_iff.mp hold).1, hold]
  refine ⟨fun i hi => ?_, fun hnone => ?_, fun message hmessage => ?_, fun c m i hi => ?_, h.distinct,
    fun p c m preamble initialUpdate hmem => ?_⟩
  · rw [hsame]
    exact hkept (h.ctrl i hi)
  · rw [hsame]
    exact h.noCtrl hnone
  · rw [hsame] at hmessage
    exact h.framed message hmessage
  · obtain ⟨preamble, initialUpdate, updates, hopen, hupdates, hbytes⟩ := h.sess c m i hi
    exact ⟨preamble, initialUpdate, updates, hopen, hupdates, hkept hbytes⟩
  · rcases List.mem_append.mp hmem with hmem | hmem
    · exact h.opened p c m preamble initialUpdate hmem
    · exact absurd (List.mem_singleton.mp hmem).symm (hopen p c m preamble initialUpdate)

/-- A control message goes to the end of the control stream. -/
theorem Rendered.control (h : Rendered out msgs) {message : BcastMessage}
    (hmsg : bcastOf msg = some message) (hfits : Framed (Bcast.mk (some message))) :
    ∃ i out', out.writeOutbound msg = (.ok (), out', []) ∧ Rendered out' (msgs ++ [msg])
      ∧ OnlyAt i out out'
      ∧ (out.streams[i]? = some (openStream [] .bcast ++ controlBytes (msgs.filterMap bcastOf))
        ∨ out.streams[i]? = none ∧ msgs.filterMap bcastOf = [])
      ∧ out'.streams[i]?
        = some (openStream [] .bcast ++ controlBytes ((msgs ++ [msg]).filterMap bcastOf)) := by
  have hwrite : out.writeOutbound msg
      = ((out.ensureCtrl.2.writeOn out.ensureCtrl.1 (Bcast.mk (some message))).1,
        (out.ensureCtrl.2.writeOn out.ensureCtrl.1 (Bcast.mk (some message))).2, []) := by
    cases msg <;> simp only [bcastOf, Option.some.injEq, reduceCtorEq] at hmsg <;>
      simp only [writeOutbound, bcastOf, hmsg]
  have hmsgs : (msgs ++ [msg]).filterMap bcastOf = msgs.filterMap bcastOf ++ [message] := by
    simp [List.filterMap_append, hmsg]
  have hbytes : controlBytes (msgs.filterMap bcastOf ++ [message])
      = controlBytes (msgs.filterMap bcastOf) ++ frame (Bcast.mk (some message)) := by
    simp [controlBytes]
  have hframed : ∀ m ∈ (msgs ++ [msg]).filterMap bcastOf, Framed (Bcast.mk (some m)) := by
    rw [hmsgs]
    intro m hm
    rcases List.mem_append.mp hm with hm | hm
    · exact h.framed m hm
    · obtain rfl := List.mem_singleton.mp hm
      exact hfits
  have hopened : ∀ p c m preamble initialUpdate,
      .sessionOpen p c m preamble initialUpdate ∈ msgs ++ [msg] → ∃ i, out.sess[(c, m)]? = some i := by
    intro p c m preamble initialUpdate hmem
    rcases List.mem_append.mp hmem with hmem | hmem
    · exact h.opened p c m preamble initialUpdate hmem
    · rw [← List.mem_singleton.mp hmem] at hmsg
      cases hmsg
  -- the control stream is open already, or this message opens it with its selector
  cases hctrl : out.ctrl with
  | some i =>
    have hold := h.ctrl i hctrl
    have hlt := (List.getElem?_eq_some_iff.mp hold).1
    have hensure : out.ensureCtrl = (i, out) := by simp only [ensureCtrl, hctrl]
    rw [hensure] at hwrite
    simp only [writeOn, hold, Option.getD_some, writeFramed_of_framed hfits] at hwrite
    refine ⟨i, _, hwrite, ⟨fun j hj => ?_, fun hnone => ?_, hframed, fun c m j hj => ?_, h.distinct,
      hopened⟩, fun j hj => List.getElem?_set_ne hj.symm, .inl hold, ?_⟩
    · obtain rfl := Option.some.inj (hctrl.symm.trans hj)
      rw [List.getElem?_set_self hlt, hmsgs, hbytes, ← List.append_assoc]
    · rw [hctrl] at hnone
      cases hnone
    · obtain ⟨preamble, initialUpdate, updates, hopen, hupdates, hold'⟩ := h.sess c m j hj
      refine ⟨preamble, initialUpdate, updates, hopen, hupdates, ?_⟩
      rw [List.getElem?_set_ne (h.ctrl_ne_sess hctrl hj), hold']
    · rw [List.getElem?_set_self hlt, hmsgs, hbytes, ← List.append_assoc]
  | none =>
    have hempty := h.noCtrl hctrl
    have hensure : out.ensureCtrl = (out.streams.length, { out with
        streams := out.streams ++ [openStream [] .bcast], ctrl := some out.streams.length }) := by
      simp only [ensureCtrl, hctrl]
    have hset : ∀ bytes, (out.streams ++ [openStream [] .bcast]).set out.streams.length bytes
        = out.streams ++ [bytes] := fun bytes => by simp
    rw [hensure] at hwrite
    simp only [writeOn, List.getElem?_concat_length, Option.getD_some, writeFramed_of_framed hfits,
      hset] at hwrite
    have hnew : (out.streams ++ [openStream [] .bcast ++ frame (Bcast.mk (some message))])[
        out.streams.length]? = some (openStream [] .bcast
          ++ controlBytes ((msgs ++ [msg]).filterMap bcastOf)) := by
      rw [List.getElem?_concat_length, hmsgs, hbytes, hempty]
      rfl
    refine ⟨out.streams.length, _, hwrite, ⟨fun j hj => ?_, fun hnone => ?_, hframed,
      fun c m j hj => ?_, h.distinct, hopened⟩, fun j hj => ?_, .inr ⟨?_, hempty⟩, hnew⟩
    · obtain rfl := Option.some.inj hj
      exact hnew
    · cases hnone
    · obtain ⟨preamble, initialUpdate, updates, hopen, hupdates, hold'⟩ := h.sess c m j hj
      refine ⟨preamble, initialUpdate, updates, hopen, hupdates, ?_⟩
      rw [List.getElem?_append_left (h.lt_length hj), hold']
    · exact getElem?_concat_of_ne hj _
    · exact List.getElem?_eq_none le_rfl

/-- A session's open goes on a stream of its own. -/
theorem Rendered.sessionOpen (h : Rendered out msgs) {p : PeerId} {c : ChannelId} {m : MessageId}
    {preamble initialUpdate : Bytes} (hfits : (NetSend.sessionOpen p c m preamble initialUpdate).Fits) :
    ∃ out', out.writeOutbound (.sessionOpen p c m preamble initialUpdate) = (.ok (), out', [])
      ∧ Rendered out' (msgs ++ [.sessionOpen p c m preamble initialUpdate])
      ∧ OnlyAt out.streams.length out out'
      ∧ out'.streams[out.streams.length]? = some (openStream [] .sess
        ++ (frame (Sess.mk (some (.sessionOpen c m preamble initialUpdate))) ++ updateBytes [])) := by
  have hframed : Framed (Sess.mk (some (.sessionOpen c m preamble initialUpdate))) := hfits
  have hmsgs : (msgs ++ [NetSend.sessionOpen p c m preamble initialUpdate]).filterMap bcastOf
      = msgs.filterMap bcastOf := by
    simp [List.filterMap_append, bcastOf]
  have hget : ∀ key, (out.sess.insert (c, m) out.streams.length)[key]?
      = if (c, m) = key then some out.streams.length else out.sess[key]? :=
    fun key => BTreeMap.get_insert _ _ _ _
  -- a stream of its own is opened for the session, behind the others
  have hwrite : out.writeOutbound (.sessionOpen p c m preamble initialUpdate)
      = (.ok (), { out with
        streams := out.streams ++ [openStream [] .sess
          ++ frame (Sess.mk (some (.sessionOpen c m preamble initialUpdate)))]
        sess := out.sess.insert (c, m) out.streams.length }, []) := by
    simp only [writeOutbound, writeFramed_of_framed hframed]
  refine ⟨_, hwrite, ⟨fun i hi => ?_, fun hnone => ?_, fun message hmessage => ?_, fun c' m' i hi => ?_,
    fun key key' i hi hi' => ?_, fun p' c' m' pre' upd' hmem => ?_⟩,
    fun j hj => getElem?_concat_of_ne hj _, ?_⟩
  · rw [hmsgs, List.getElem?_append_left (List.getElem?_eq_some_iff.mp (h.ctrl i hi)).1, h.ctrl i hi]
  · rw [hmsgs]
    exact h.noCtrl hnone
  · rw [hmsgs] at hmessage
    exact h.framed message hmessage
  · rw [hget] at hi
    split at hi
    case isTrue heq =>
      obtain ⟨rfl, rfl⟩ := Prod.mk.inj heq
      obtain rfl := Option.some.inj hi
      refine ⟨preamble, initialUpdate, [], hframed, by simp, ?_⟩
      rw [List.getElem?_concat_length]
      simp [updateBytes]
    case isFalse =>
      obtain ⟨pre', upd', updates, hopen, hupdates, hold⟩ := h.sess c' m' i hi
      exact ⟨pre', upd', updates, hopen, hupdates, by
        rw [List.getElem?_append_left (h.lt_length hi), hold]⟩
  · rw [hget] at hi hi'
    split at hi <;> split at hi'
    case isTrue.isTrue heq heq' => exact heq.symm.trans heq'
    case isTrue.isFalse =>
      obtain rfl := Option.some.inj hi
      exact absurd (h.lt_length hi') (Nat.lt_irrefl _)
    case isFalse.isTrue =>
      obtain rfl := Option.some.inj hi'
      exact absurd (h.lt_length hi) (Nat.lt_irrefl _)
    case isFalse.isFalse => exact h.distinct key key' i hi hi'
  · rw [hget]
    split
    · exact ⟨_, rfl⟩
    case isFalse hne =>
      rcases List.mem_append.mp hmem with hmem | hmem
      · exact h.opened p' c' m' pre' upd' hmem
      · obtain ⟨-, rfl, rfl, -, -⟩ := NetSend.sessionOpen.inj (List.mem_singleton.mp hmem)
        exact absurd rfl hne
  · rw [List.getElem?_concat_length]
    simp [updateBytes]

/-- A routing update goes to the end of its session's stream. -/
theorem Rendered.routingUpdate (h : Rendered out msgs) {p : PeerId} {c : ChannelId} {m : MessageId}
    {payload : Bytes} (hfits : (NetSend.routingUpdate p c m payload).Fits) {i : Nat}
    (hi : out.sess[(c, m)]? = some i) :
    ∃ out' preamble initialUpdate updates,
      out.writeOutbound (.routingUpdate p c m payload) = (.ok (), out', [])
      ∧ Rendered out' (msgs ++ [.routingUpdate p c m payload])
      ∧ OnlyAt i out out'
      ∧ Framed (Sess.mk (some (.sessionOpen c m preamble initialUpdate)))
      ∧ (∀ data ∈ updates ++ [payload], Framed (Sess.mk (some (.routingUpdate data))))
      ∧ out.streams[i]? = some (openStream [] .sess
        ++ (frame (Sess.mk (some (.sessionOpen c m preamble initialUpdate))) ++ updateBytes updates))
      ∧ out'.streams[i]? = some (openStream [] .sess
        ++ (frame (Sess.mk (some (.sessionOpen c m preamble initialUpdate)))
          ++ updateBytes (updates ++ [payload]))) := by
  have hframed : Framed (Sess.mk (some (.routingUpdate payload))) := hfits
  obtain ⟨preamble, initialUpdate, updates, hopen, hupdates, hold⟩ := h.sess c m i hi
  have hlt := h.lt_length hi
  have hmsgs : (msgs ++ [NetSend.routingUpdate p c m payload]).filterMap bcastOf
      = msgs.filterMap bcastOf := by
    simp [List.filterMap_append, bcastOf]
  have hall : ∀ data ∈ updates ++ [payload], Framed (Sess.mk (some (.routingUpdate data))) := by
    intro data hdata
    rcases List.mem_append.mp hdata with hdata | hdata
    · exact hupdates data hdata
    · obtain rfl := List.mem_singleton.mp hdata
      exact hframed
  -- the update goes to the end of the stream of its session
  have hwrite : out.writeOutbound (.routingUpdate p c m payload)
      = (.ok (), { out with streams := out.streams.set i (openStream [] .sess
        ++ (frame (Sess.mk (some (.sessionOpen c m preamble initialUpdate)))
          ++ updateBytes (updates ++ [payload]))) }, []) := by
    simp only [writeOutbound, hi, writeOn, hold, Option.getD_some, writeFramed_of_framed hframed,
      updateBytes, List.flatMap_append, List.flatMap_singleton, List.append_assoc]
  refine ⟨_, preamble, initialUpdate, updates, hwrite, ⟨fun j hj => ?_, fun hnone => ?_,
    fun message hmessage => ?_, fun c' m' j hj => ?_, h.distinct, fun p' c' m' pre' upd' hmem => ?_⟩,
    fun j hj => List.getElem?_set_ne hj.symm, hopen, hall, hold, List.getElem?_set_self hlt⟩
  · rw [hmsgs, List.getElem?_set_ne (h.ctrl_ne_sess hj hi).symm, h.ctrl j hj]
  · rw [hmsgs]
    exact h.noCtrl hnone
  · rw [hmsgs] at hmessage
    exact h.framed message hmessage
  · by_cases heq : j = i
    · subst heq
      obtain ⟨rfl, rfl⟩ := Prod.mk.inj (h.distinct _ _ _ hi hj)
      exact ⟨preamble, initialUpdate, updates ++ [payload], hopen, hall, List.getElem?_set_self hlt⟩
    · obtain ⟨pre', upd', updates', hopen', hupdates', hold'⟩ := h.sess c' m' j hj
      exact ⟨pre', upd', updates', hopen', hupdates', by
        rw [List.getElem?_set_ne (Ne.symm heq), hold']⟩
  · rcases List.mem_append.mp hmem with hmem | hmem
    · exact h.opened p' c' m' pre' upd' hmem
    · cases List.mem_singleton.mp hmem

/-- A chunk goes on a stream of its own. -/
theorem Rendered.chunk (h : Rendered out msgs) {p : PeerId} {c : ChannelId} {m : MessageId}
    {chunkId : Nat} {payload : Bytes} {token : DispatchHandle}
    (hfits : (NetSend.chunk p c m chunkId payload token).Fits) :
    ∃ out', out.writeOutbound (.chunk p c m chunkId payload token)
        = (.ok (), out', [.chunkSendResult p c m token true])
      ∧ Rendered out' (msgs ++ [.chunk p c m chunkId payload token])
      ∧ OnlyAt out.streams.length out out'
      ∧ out'.streams[out.streams.length]? = some (openStream [] .chunk
        ++ (frame (chunkHeader c m chunkId payload) ++ payload)) := by
  obtain ⟨hframed, hmax⟩ := hfits
  have hwrite : out.writeOutbound (.chunk p c m chunkId payload token)
      = (.ok (), { out with streams := out.streams ++ [openStream [] .chunk
        ++ (frame (chunkHeader c m chunkId payload) ++ payload)] },
        [.chunkSendResult p c m token true]) := by
    simp only [writeOutbound, writeChunk_of_fits hframed (chunkHeader_dataLength c m chunkId hmax) hmax,
      List.append_assoc]
    rfl
  exact ⟨_, hwrite, h.appended rfl (by simp) _, fun j hj => getElem?_concat_of_ne hj _,
    List.getElem?_concat_length⟩

omit [Message Header] [Message ChunkIdent] in
/-- A message that is not written changes nothing. -/
theorem Rendered.unwritten (h : Rendered out msgs) (hcontrol : bcastOf msg = none)
    (hopen : ∀ p c m preamble initialUpdate, msg ≠ .sessionOpen p c m preamble initialUpdate) :
    Rendered out (msgs ++ [msg]) := by
  have hsame : (msgs ++ [msg]).filterMap bcastOf = msgs.filterMap bcastOf := by
    simp [List.filterMap_append, hcontrol]
  refine ⟨hsame.symm ▸ h.ctrl, hsame.symm ▸ h.noCtrl, hsame.symm ▸ h.framed, h.sess, h.distinct,
    fun p c m preamble initialUpdate hmem => ?_⟩
  rcases List.mem_append.mp hmem with hmem | hmem
  · exact h.opened p c m preamble initialUpdate hmem
  · exact absurd (List.mem_singleton.mp hmem).symm (hopen p c m preamble initialUpdate)

/-- Every kind of message that fits is written without an error. -/
theorem Rendered.pump (h : Rendered out msgs) (hfits : msg.Fits) :
    Rendered (out.pump msg) (msgs ++ [msg]) := by
  have hcontrol : ∀ {message}, bcastOf msg = some message →
      (∀ m ∈ bcastOf msg, Framed (Bcast.mk (some m))) →
      Rendered (out.pump msg) (msgs ++ [msg]) := by
    intro message hmessage hframed
    obtain ⟨i, out', hwrite, hrendered, -⟩ := h.control hmessage (hframed message hmessage)
    simpa only [PeerStreams.pump, hwrite] using hrendered
  cases msg with
  | handshake | subscribe | unsubscribe => exact hcontrol rfl hfits
  | sessionOpen =>
    obtain ⟨out', hwrite, hrendered, -⟩ := h.sessionOpen hfits
    simpa only [PeerStreams.pump, hwrite] using hrendered
  | routingUpdate p c m payload =>
    cases hi : out.sess[(c, m)]? with
    | none =>
      have hwrite : out.writeOutbound (.routingUpdate p c m payload) = (.ok (), out, []) := by
        simp only [writeOutbound, hi]
      simpa only [PeerStreams.pump, hwrite] using h.unwritten rfl (by simp)
    | some i =>
      obtain ⟨out', -, -, -, hwrite, hrendered, -⟩ := h.routingUpdate hfits hi
      simpa only [PeerStreams.pump, hwrite] using hrendered
  | chunk =>
    obtain ⟨out', hwrite, hrendered, -⟩ := h.chunk hfits
    simpa only [PeerStreams.pump, hwrite] using hrendered
  | sessionReconstructed => exact h.unwritten rfl (by simp)

/-- **The streams of a connection render the messages that were written**, in any number. -/
theorem pumpAll_rendered {msgs : List NetSend} (hfits : ∀ msg ∈ msgs, msg.Fits) :
    Rendered (pumpAll {} msgs) msgs := by
  induction msgs using List.reverseRecOn with
  | nil => exact new_rendered
  | append_singleton msgs msg ih =>
    have hrendered := ih fun m hm => hfits m (List.mem_append_left _ hm)
    rw [pumpAll, List.foldl_concat]
    exact hrendered.pump (hfits msg (List.mem_append_right _ (List.mem_singleton_self msg)))

/-! ## What is carried -/

/-- Given all messages so far, this last one arrives as it does in process. -/
def Carried (expected : Option String) (msgs : List NetSend) : NetSend → Prop
  | .sessionOpen .. => True
  | .routingUpdate .. => False
  | .chunk _ _ _ chunkId _ _ => chunkId < 2 ^ 31
  | _ => ∀ message ∈ msgs.filterMap bcastOf, spoofs expected ⟨some message⟩ = false

omit [Message Bcast] [Message Sess] [Message Header] [Message ChunkIdent] in
/-- The last element is taken if all are. -/
theorem takeWhile_concat {α : Type} (p : α → Bool) (l : List α) (a : α) :
    (l ++ [a]).takeWhile p = l.takeWhile p ++ if ∀ x ∈ l ++ [a], p x then [a] else [] := by
  induction l with
  | nil => cases hp : p a <;> simp [hp]
  | cons b l ih =>
    cases hp : p b with
    | false => simp [hp]
    | true => simp only [List.cons_append, List.takeWhile_cons, hp, if_true, ih, List.forall_mem_cons,
        true_and]

omit [Message Bcast] [Message Sess] [Message Header] [Message ChunkIdent] in
/-- A control message's event is the one the in-process transport delivers. -/
theorem bcastEvent_bcastOf {src : PeerId} {message : BcastMessage} (h : bcastOf msg = some message) :
    bcastEvent src ⟨some message⟩ = MemoryNetHub.eventOf src msg := by
  cases msg <;> simp only [bcastOf, Option.some.injEq, reduceCtorEq] at h <;> subst h <;> rfl

variable {src : PeerId} {expected : Option String} {stops : Nat → Bool} {event : NetEvent}

theorem emitted_of_get {i : Nat} {bytes : Bytes} (h : out.streams[i]? = some bytes) :
    out.emitted src expected stops i = (readStream src expected stops bytes).1 := by
  rw [emitted, h]
  rfl

/-- No stream, no events. -/
theorem emitted_new : out.emitted src expected stops out.streams.length = [] := by
  rw [emitted, List.getElem?_eq_none le_rfl]
  rfl

/-- A control message adds its event to what its stream emits if no handshake on it is spoofed. -/
theorem emitted_control (hinv : Inverts Bcast) {out' : PeerStreams} {message : BcastMessage} {i : Nat}
    (hmsg : bcastOf msg = some message) (hevent : MemoryNetHub.eventOf src msg = some event)
    (hframed : ∀ m ∈ (msgs ++ [msg]).filterMap bcastOf, Framed (Bcast.mk (some m)))
    (hold : out.streams[i]? = some (openStream [] .bcast ++ controlBytes (msgs.filterMap bcastOf))
      ∨ out.streams[i]? = none ∧ msgs.filterMap bcastOf = [])
    (hnew : out'.streams[i]?
      = some (openStream [] .bcast ++ controlBytes ((msgs ++ [msg]).filterMap bcastOf))) :
    out'.emitted src expected stops i = out.emitted src expected stops i ++ [event]
      ↔ ∀ m ∈ (msgs ++ [msg]).filterMap bcastOf, spoofs expected ⟨some m⟩ = false := by
  have hmsgs : (msgs ++ [msg]).filterMap bcastOf = msgs.filterMap bcastOf ++ [message] := by
    simp [List.filterMap_append, hmsg]
  -- the reader gave the messages up to the first that spoofs
  have hbefore : out.emitted src expected stops i
      = ((msgs.filterMap bcastOf).takeWhile fun m => !spoofs expected ⟨some m⟩).filterMap
        fun m => bcastEvent src ⟨some m⟩ := by
    rcases hold with hold | ⟨hold, hnil⟩
    · rw [emitted_of_get hold]
      exact readStream_bcast hinv fun m hm => hframed m (hmsgs ▸ List.mem_append_left _ hm)
    · rw [emitted, hold, hnil]
      rfl
  rw [emitted_of_get hnew, readStream_bcast hinv hframed, hbefore, hmsgs, takeWhile_concat,
    List.filterMap_append]
  have hsingle : [message].filterMap (fun m => bcastEvent src ⟨some m⟩) = [event] := by
    rw [List.filterMap_cons, bcastEvent_bcastOf hmsg, hevent]
    rfl
  split
  case isTrue hall =>
    refine iff_of_true (congrArg _ hsingle) fun m hm => ?_
    simpa using hall m hm
  case isFalse hnot =>
    refine iff_of_false (fun heq => ?_) fun hall => hnot fun m hm => ?_
    · have hlen := congrArg List.length heq
      simp at hlen
    · simp [hall m hm]

/-- **Which messages QUIC carries as the in-process transport does.**  After any messages that fit, writing
one more that fits changes a single stream; and that stream emits, after what it emitted before, exactly
the event the in-process transport delivers if and only if the message is carried: it is no routing update,
a chunk's identifier is below `2^31`, and no handshake on its control stream asserts another identity than
the pinned one. -/
theorem writeOutbound_carries_iff (hbcast : Inverts Bcast) (hsess : Inverts Sess)
    (hheader : Inverts Header) (hident : Inverts ChunkIdent) (src : PeerId) (expected : Option String)
    (stops : Nat → Bool) {msgs : List NetSend} {msg : NetSend} {event : NetEvent}
    (hfits : ∀ m ∈ msgs ++ [msg], m.Fits) (hevent : MemoryNetHub.eventOf src msg = some event)
    (hopened : ∀ p c m payload, msg = .routingUpdate p c m payload →
      ∃ p' preamble initialUpdate, .sessionOpen p' c m preamble initialUpdate ∈ msgs) :
    ((pumpAll {} msgs).writeOutbound msg).1 = .ok ()
    ∧ ∃ i, OnlyAt i (pumpAll {} msgs) ((pumpAll {} msgs).writeOutbound msg).2.1
    ∧ (((pumpAll {} msgs).writeOutbound msg).2.1.emitted src expected stops i
        = (pumpAll {} msgs).emitted src expected stops i ++ [event]
      ↔ Carried expected (msgs ++ [msg]) msg) := by
  have h := pumpAll_rendered fun m hm => hfits m (List.mem_append_left _ hm)
  have hmsg : msg.Fits := hfits msg (List.mem_append_right _ (List.mem_singleton_self msg))
  generalize pumpAll {} msgs = out at h ⊢
  -- the three control messages go the same way
  have hcontrol : ∀ {message}, bcastOf msg = some message → Framed (Bcast.mk (some message)) →
      (out.writeOutbound msg).1 = .ok () ∧ ∃ i, OnlyAt i out (out.writeOutbound msg).2.1
      ∧ ((out.writeOutbound msg).2.1.emitted src expected stops i
          = out.emitted src expected stops i ++ [event]
        ↔ ∀ m ∈ (msgs ++ [msg]).filterMap bcastOf, spoofs expected ⟨some m⟩ = false) := by
    intro message hmessage hframed
    obtain ⟨i, out', hwrite, hrendered, honly, hold, hnew⟩ := h.control hmessage hframed
    rw [hwrite]
    exact ⟨rfl, i, honly, emitted_control hbcast hmessage hevent hrendered.framed hold hnew⟩
  cases msg with
  | handshake | subscribe | unsubscribe => exact hcontrol rfl (hmsg _ rfl)
  | sessionOpen p c m preamble initialUpdate =>
    obtain ⟨out', hwrite, hrendered, honly, hnew⟩ := h.sessionOpen hmsg
    obtain rfl := Option.some.inj hevent
    rw [hwrite]
    refine ⟨rfl, out.streams.length, honly, iff_of_true ?_ trivial⟩
    rw [emitted_of_get hnew, readStream_sess hsess hmsg (by simp), emitted_new]
    rfl
  | routingUpdate p c m payload =>
    obtain ⟨p', preamble, initialUpdate, hmem⟩ := hopened p c m payload rfl
    obtain ⟨i, hi⟩ := h.opened p' c m preamble initialUpdate hmem
    obtain ⟨out', pre, upd, updates, hwrite, -, honly, hopen, hframed, hold, hnew⟩ :=
      h.routingUpdate hmsg hi
    rw [hwrite]
    refine ⟨rfl, i, honly, iff_of_false (fun heq => ?_) id⟩
    rw [emitted_of_get hnew, readStream_sess hsess hopen hframed, emitted_of_get hold,
      readStream_sess hsess hopen fun data hdata => hframed data (List.mem_append_left _ hdata)] at heq
    cases heq
  | chunk p c m chunkId payload token =>
    obtain ⟨out', hwrite, hrendered, honly, hnew⟩ := h.chunk hmsg
    obtain rfl := Option.some.inj hevent
    rw [hwrite]
    refine ⟨rfl, out.streams.length, honly, ?_⟩
    rw [emitted_of_get hnew, readStream_chunk hheader hident hmsg.1 hmsg.2, emitted_new]
    change [NetEvent.chunk src c m _ payload] = [NetEvent.chunk src c m chunkId payload]
      ↔ chunkId < 2 ^ 31
    split
    case isTrue hlt => exact iff_of_true rfl hlt
    case isFalse hnot =>
      refine iff_of_false (fun heq => ?_) hnot
      injection heq with heq
      injection heq with _ _ _ hid
      omega
  | sessionReconstructed => cases hevent

/-- A session's open to a peer. -/
def peerOpen : NetSend := .sessionOpen 2 "c" "m" [1, 2] []

/-- A chunk of the session. -/
def peerChunk : NetSend := .chunk 2 "c" "m" 3 [7, 8, 9] 0

omit [Message Bcast] [Message Sess] [Message Header] [Message ChunkIdent] in
/-- A chunk behind the session it is of. -/
theorem writeOutbound_carries_chunk :
    let _ := Proto3.bcast
    let _ := Proto3.sess
    let _ := Proto3.header
    let _ := Proto3.ident
    ∃ i, ((pumpAll {} [.handshake 2 1 ["c"] "a", peerOpen]).writeOutbound peerChunk).2.1.emitted
        1 none (fun _ => false) i
      = (pumpAll {} [.handshake 2 1 ["c"] "a", peerOpen]).emitted 1 none (fun _ => false) i
        ++ [.chunk 1 "c" "m" 3 [7, 8, 9]] := by
  let _ := Proto3.bcast
  let _ := Proto3.sess
  let _ := Proto3.header
  let _ := Proto3.ident
  have hfits : ∀ m ∈ [NetSend.handshake 2 1 ["c"] "a", peerOpen] ++ [peerChunk], m.Fits := by
    simp only [List.cons_append, List.nil_append, List.forall_mem_cons]
    refine ⟨?_, ?_, ?_, by simp⟩
    · rintro message ⟨⟩
      exact of_decide_eq_true (by decide +kernel)
    · show Framed (Sess.mk (some (.sessionOpen "c" "m" [1, 2] [])))
      exact of_decide_eq_true (by decide +kernel)
    · show Framed (chunkHeader "c" "m" 3 [7, 8, 9]) ∧ [7, 8, 9].length ≤ maxChunkDataBytes
      exact ⟨of_decide_eq_true (by decide +kernel), by decide⟩
  obtain ⟨-, i, -, hcarries⟩ := writeOutbound_carries_iff (Proto3.message_inverts Proto3.bcastOf_fields)
    (Proto3.message_inverts Proto3.sessOf_fields) (Proto3.message_inverts Proto3.headerOf_fields)
    Proto3.ident_inverts 1 none (fun _ => false) hfits rfl (by rintro p c m payload ⟨⟩)
  exact ⟨i, hcarries.mpr (show 3 < 2 ^ 31 by decide)⟩

/-- Two outbound sides whose streams read alike emit alike. -/
theorem emitted_eq_getElem (out : PeerStreams) (i : Nat) :
    out.emitted src expected stops i
      = ((out.streams.map fun bytes => (readStream src expected stops bytes).1)[i]?).getD [] := by
  rw [emitted, List.getElem?_map]

omit [Message Bcast] [Message Sess] [Message Header] [Message ChunkIdent] in
/-- A routing update is written after its session's open, and no stream emits it. -/
theorem writeOutbound_not_carries :
    let _ := Proto3.bcast
    let _ := Proto3.sess
    let _ := Proto3.header
    let _ := Proto3.ident
    let update : NetSend := .routingUpdate 2 "c" "m" [5]
    let out := pumpAll {} [peerOpen]
    MemoryNetHub.eventOf 1 update = some (.routingUpdate 1 "c" "m" [5])
    ∧ peerOpen.Fits ∧ update.Fits
    ∧ ∀ i, (out.writeOutbound update).2.1.emitted 1 none (fun _ => false) i
        ≠ out.emitted 1 none (fun _ => false) i ++ [.routingUpdate 1 "c" "m" [5]] := by
  intro _ _ _ _ update out
  refine ⟨rfl, ?_, ?_, fun i heq => ?_⟩
  · show Framed (Sess.mk (some (.sessionOpen "c" "m" [1, 2] [])))
    exact of_decide_eq_true (by decide +kernel)
  · show Framed (Sess.mk (some (.routingUpdate [5])))
    exact of_decide_eq_true (by decide +kernel)
  · have hsame : (out.writeOutbound update).2.1.streams.map
          (fun bytes => (readStream 1 none (fun _ => false) bytes).1)
        = out.streams.map fun bytes => (readStream 1 none (fun _ => false) bytes).1 := by
      decide +kernel
    rw [emitted_eq_getElem, emitted_eq_getElem, hsame] at heq
    simpa using congrArg List.length heq

end PeerStreams

end Ethp2p
