/-
# Ethp2p.Transport.Limits — what an origin publishes against what the wire takes.

The encoder derives the shard length from the payload and the configuration, whatever it comes to; the wire
caps a chunk's payload at 1 MiB.  The two agree exactly for the payloads and configurations of `ShardsFit`.
The frames never get near their own cap: there are at most 256 shards, so the encoded preamble has less than
9 kB.

What the generated code encodes is the proto3 form of the schema (`WritesProto3`).
-/
import Ethp2p.Transport.Streams
import Ethp2p.Strategy.Rs.Origin
import Ethp2p.Strategy.Rs.OneShard

namespace Ethp2p

open Protobuf

section Wire

variable [Crates] [Message Sess] [Message Header] [Message ChunkIdent]

/-- A message is encoded as its fields. -/
structure WritesProto3 : Prop where
  preamble : ∀ p : Preamble, Crates.preambleEncode p = fields (Proto3.preambleFields p)
  sess : ∀ m : Sess, Message.encode m = fields (Proto3.sessFields m)
  header : ∀ m : Header, Message.encode m = fields (Proto3.headerFields m)
  ident : ∀ m : ChunkIdent, Message.encode m = fields (Proto3.int32 1 m.index)

/-- The channel and message identifiers have at most 1024 bytes each. -/
def ShortIds (c : ChannelId) (m : MessageId) : Prop :=
  (Proto3.utf8 c).length ≤ 1024 ∧ (Proto3.utf8 m).length ≤ 1024

/-- The `Sess.Open` of a session on this preamble. -/
def openFrame (s : RsStrategy) (c : ChannelId) (m : MessageId) : Sess :=
  ⟨some (.sessionOpen c m (Crates.preambleEncode s.preamble) [])⟩

/-- The wire takes all the strategy sends: every chunk it dispatches after any operations, and the open of
its session. -/
structure Carriable (s : RsStrategy) : Prop where
  chunk_le : ∀ ops, ∀ d ∈ (s.runOps ops).pollChunks.1, d.payload.length ≤ maxChunkDataBytes
  chunk_written : ∀ ops, ∀ d ∈ (s.runOps ops).pollChunks.1, ∀ c m, ShortIds c m → ∀ written,
    (writeChunk written (chunkHeader c m d.chunkId d.payload) d.payload).1 = .ok ()
  open_framed : ∀ c m, ShortIds c m → Framed (openFrame s c m)
  open_written : ∀ c m, ShortIds c m → ∀ written, (writeFramed written (openFrame s c m)).1 = .ok ()

/-- A fixed chunk length is at most 1 MiB; otherwise the payload is at most that for each data shard. -/
def ShardsFit (payloadLen : Nat) (config : RsConfig) : Prop :=
  if config.chunkLen > 0 then
    config.chunkLen ≤ maxChunkDataBytes
  else
    payloadLen ≤ config.dataShards * maxChunkDataBytes

/-! ## Frames -/

omit [Crates] [Message Sess] [Message Header] [Message ChunkIdent] in
/-- A negative number takes ten bytes, and a tag. -/
theorem length_int32_le {num : Nat} (hnum : num < 16) (x : Int32) :
    (fields (Proto3.int32 num x)).length ≤ 11 := by
  have hx : Proto3.ofInt32 x < 128 ^ (9 + 1) := by
    unfold Proto3.ofInt32
    omega
  exact length_uint_le hnum hx

omit [Crates] [Message Sess] [Message Header] [Message ChunkIdent] in
/-- The preamble of at most 256 shards is short. -/
theorem length_preamble_le {p : Preamble} (hcount : p.hashes.length ≤ 256)
    (hhashes : ∀ b ∈ p.hashes, b.length ≤ hashLen) (hhash : p.hash.length ≤ hashLen) :
    (fields (Proto3.preambleFields p)).length ≤ 8771 := by
  have hdata := length_int32_le (by decide : 1 < 16) p.numData
  have hparity := length_int32_le (by decide : 2 < 16) p.numParity
  have hlength := length_int32_le (by decide : 3 < 16) p.length
  have hall := length_repeated_le (k := 0) (by decide : 4 < 16) (by decide : hashLen < _) hhashes
  have hmessage := length_string_le (k := 0) (by decide : 5 < 16) (Nat.lt_of_le_of_lt hhash (by decide))
  have hentries : (0 + 2 + hashLen) * p.hashes.length ≤ 34 * 256 := Nat.mul_le_mul_left 34 hcount
  have hhashLen : hashLen = 32 := rfl
  unfold Proto3.preambleFields
  simp only [length_fields_append]
  omega

omit [Crates] [Message Header] [Message ChunkIdent] in
/-- A `SessionOpen` fits a frame if its preamble leaves room for the ids. -/
theorem framed_open {c : ChannelId} {m : MessageId} {preamble : Bytes}
    (hsess : ∀ m : Sess, Message.encode m = fields (Proto3.sessFields m)) (hids : ShortIds c m)
    (hpreamble : preamble.length ≤ 8771) :
    Framed (Sess.mk (some (.sessionOpen c m preamble []))) := by
  have hchannel := length_string_le (k := 1) (by decide : 1 < 16) (Nat.lt_of_le_of_lt hids.1 (by decide))
  have hmessage := length_string_le (k := 1) (by decide : 2 < 16) (Nat.lt_of_le_of_lt hids.2 (by decide))
  have hbytes := length_string_le (k := 1) (by decide : 3 < 16) (Nat.lt_of_le_of_lt hpreamble (by decide))
  have hupdate : (fields (string 4 [])).length = 0 := rfl
  have hopen : (fields (Proto3.openFields c m preamble [])).length ≤ 10828 := by
    have hc := hids.1
    have hm := hids.2
    unfold Proto3.openFields
    simp only [length_fields_append]
    omega
  have hframe := length_submessage_le (k := 1) (by decide : 1 < 16)
    (Nat.lt_of_le_of_lt hopen (by decide))
  have hmax : maxFrameBytes = 1048576 := rfl
  rw [Framed, hsess, Proto3.sessFields]
  omega

omit [Crates] [Message Sess] in
/-- A chunk's header fits a frame: its payload is behind it. -/
theorem framed_chunkHeader {c : ChannelId} {m : MessageId} {chunkId : Nat} {payload : Bytes}
    (hheader : ∀ m : Header, Message.encode m = fields (Proto3.headerFields m))
    (hident : ∀ m : ChunkIdent, Message.encode m = fields (Proto3.int32 1 m.index))
    (hids : ShortIds c m) : Framed (chunkHeader c m chunkId payload) := by
  have hchannel := length_string_le (k := 1) (by decide : 1 < 16) (Nat.lt_of_le_of_lt hids.1 (by decide))
  have hmessage := length_string_le (k := 1) (by decide : 2 < 16) (Nat.lt_of_le_of_lt hids.2 (by decide))
  have hid : (Message.encode (ChunkIdent.mk ((i32TryFrom chunkId).getD Int32.maxValue))).length ≤ 11 := by
    rw [hident]
    exact length_int32_le (by decide) _
  have hchunk := length_string_le (k := 0) (by decide : 3 < 16) (Nat.lt_of_le_of_lt hid (by decide))
  have hlt : (chunkHeader c m chunkId payload).dataLength < 128 ^ (9 + 1) := by
    show (if payload.length < 2 ^ 32 then payload.length else 2 ^ 32 - 1) < _
    split <;> omega
  have hlength := length_uint_le (by decide : 4 < 16) hlt
  have hmax : maxFrameBytes = 1048576 := rfl
  have hc := hids.1
  have hm := hids.2
  rw [Framed, hheader, Proto3.headerFields, hmax]
  simp only [length_fields_append]
  show (fields (string 1 (Proto3.utf8 c))).length + (fields (string 2 (Proto3.utf8 m))).length
    + (fields (string 3 (Message.encode (ChunkIdent.mk ((i32TryFrom chunkId).getD Int32.maxValue))))).length
    + _ ≤ _
  omega

/-! ## Shards -/

section Shards

variable {payload : Bytes} {config : RsConfig} {seed : UInt64} {s : RsStrategy} {preamble : Preamble}
  {shards : List Bytes} {k m chunkLen : Nat}

omit [Message Sess] [Message Header] [Message ChunkIdent] in
/-- Which payloads and configurations give shards that are not too long. -/
theorem Encoded.shardsFit_iff (h : Encoded payload config preamble shards k m chunkLen)
    (hrs : RsCorrect) : ShardsFit payload.length config ↔ chunkLen ≤ maxChunkDataBytes := by
  have hk := (h.shape_bounds hrs).1
  have hshape := h.shape
  unfold resolveShape at hshape
  unfold ShardsFit
  split at hshape <;> obtain ⟨rfl, -, rfl⟩ := Prod.mk.injEq .. ▸ hshape
  case isTrue hfixed => rw [if_pos hfixed]
  case isFalse hfree =>
    rw [if_neg hfree, ← Nat.not_lt, ← Nat.not_lt, lt_divCeil hk, Nat.mul_comm]

omit [Message Sess] [Message Header] [Message ChunkIdent] in
/-- An origin dispatches a shard to the first peer that is attached to it. -/
theorem RsStrategy.Whole.first_dispatch (hwhole : s.Whole shards)
    (hs : s = RsStrategy.withParts config preamble (shards.map some)
      (EmitPlanner.new shards.length seed .origin))
    (hne : 0 < shards.length) (peer : PeerId) : (s.runOps [.attach peer]).pollChunks.1 ≠ [] := by
  intro hnil
  have hattached : peer ∈ (s.runOps [.attach peer]).attachedPeers := Std.ExtTreeSet.mem_insert_self
  have hstate : ∀ q, (s.runOps [.attach peer]).planner.peerState q = default := fun q => by
    subst hs
    simp [RsStrategy.runOps, RsStrategy.applyOp, RsStrategy.attachPeer, RsStrategy.withParts,
      EmitPlanner.peerState, EmitPlanner.new]
  refine (hwhole.runOps [.attach peer]).poll_complete hnil hattached 0
    ⟨(hwhole.runOps _).held_iff.mpr hne, fun b hb => ?_, ?_, fun cap hcap => ?_⟩
  · rw [hstate] at hb
    cases hb
  · rw [EmitPlanner.inFlightTo, hstate]
    exact Std.ExtTreeSet.not_mem_empty
  · subst hs
    cases hcap

end Shards

/-- **When the wire takes what an origin publishes.**  For every payload, configuration and seed with which
an origin can be built: that every chunk it dispatches in any run is short enough and is written, and that
the open of its session is framed and written, holds exactly when the shards fit. -/
theorem newOrigin_carriable_iff (hsha : Sha256Len) (hrs : RsCorrect) (hproto : WritesProto3)
    {payload : Bytes} {config : RsConfig} {seed : UInt64} {s : RsStrategy}
    (hs : RsStrategy.newOriginWithSeed payload config seed = .ok s) :
    Carriable s ↔ ShardsFit payload.length config := by
  obtain ⟨shards, k, m, chunkLen, henc, hparts, hwhole⟩ := RsStrategy.newOriginWithSeed_ok hrs hs
  have hlen := henc.length_shards hrs
  have hbounds := henc.shape_bounds hrs
  -- every dispatch is a whole shard, and all shards are of one length
  have hdispatch : ∀ ops, ∀ d ∈ (s.runOps ops).pollChunks.1, d.payload.length = chunkLen :=
    fun ops d hd => henc.length_of_mem hrs (List.mem_of_getElem? ((hwhole.runOps ops).dispatch_mem hd))
  rw [henc.shardsFit_iff hrs]
  constructor
  -- some dispatch exists, so its length is within the limit
  · intro hcarriable
    have hfirst := hwhole.first_dispatch hparts (by omega) 0
    obtain ⟨d, hd⟩ := List.exists_mem_of_ne_nil _ hfirst
    exact hdispatch _ d hd ▸ hcarriable.chunk_le _ d hd
  · intro hfit
    have hle : ∀ ops, ∀ d ∈ (s.runOps ops).pollChunks.1, d.payload.length ≤ maxChunkDataBytes :=
      fun ops d hd => hdispatch ops d hd ▸ hfit
    have hpreamble : (Crates.preambleEncode s.preamble).length ≤ 8771 := by
      rw [hproto.preamble]
      refine length_preamble_le ?_ (fun b hb => ?_) ?_
      · rw [henc.hashes, List.length_map]
        omega
      · rw [henc.hashes] at hb
        obtain ⟨shard, -, rfl⟩ := List.mem_map.mp hb
        exact (hsha shard).le
      · rw [henc.hash]
        exact (hsha payload).le
    have hopen : ∀ c m, ShortIds c m → Framed (openFrame s c m) :=
      fun c m hids => framed_open hproto.sess hids hpreamble
    refine ⟨hle, fun ops d hd c m hids written => ?_, hopen, fun c m hids written => ?_⟩
    · rw [writeChunk_of_fits (framed_chunkHeader hproto.header hproto.ident hids)
        (chunkHeader_dataLength c m d.chunkId (hle ops d hd)) (hle ops d hd)]
    · rw [writeFramed_of_framed (hopen c m hids)]

end Wire

section OneShard

/-- The crates at one data shard, with the proto3 form of every preamble. -/
@[reducible]
def wireShard : Crates :=
  { oneShard with preambleEncode := fun p => fields (Proto3.preambleFields p) }

attribute [local instance] wireShard Proto3.sess Proto3.header Proto3.ident

theorem wireShard_sha256Len : @Sha256Len wireShard := OneShard.sha256Len

theorem wireShard_rsCorrect : @RsCorrect wireShard :=
  have h := OneShard.rsCorrect
  ⟨@RsCorrect.shape oneShard h, @RsCorrect.encode_lengths oneShard h, @RsCorrect.encode_data oneShard h,
    @RsCorrect.reconstruct oneShard h⟩

theorem wireShard_writes : WritesProto3 := ⟨fun _ => rfl, fun _ => rfl, fun _ => rfl, fun _ => rfl⟩

/-- One data and one parity shard are made of every payload whose length fits the preamble. -/
theorem newOrigin_oneShard {payload : Bytes} (hne : payload ≠ []) (hlen : payload.length < 2 ^ 31) :
    ∃ s, RsStrategy.newOriginWithSeed payload OneShard.config 7 = .ok s := by
  have hpos := List.length_pos_iff.mpr hne
  have hshape : resolveShape payload.length OneShard.config = (1, 1, payload.length) := by
    simp [resolveShape, OneShard.config, divCeil]
  obtain ⟨shards, hshards⟩ : ∃ shards,
      Crates.rsEncode 1 1 (fillShards 2 payload.length payload) = .ok shards := by
    rw [fillShards_eq _ hpos]
    show ∃ shards, OneShard.encodeShards 1 1
      [paddedChunk payload.length payload 0, paddedChunk payload.length payload 1] = .ok shards
    simp [OneShard.encodeShards, length_paddedChunk, List.replicate_succ]
  obtain ⟨one, hone⟩ : ∃ x, i32TryFrom 1 = some x := ⟨_, rfl⟩
  obtain ⟨length, hlength⟩ : ∃ x, i32TryFrom payload.length = some x := ⟨_, if_pos hlen⟩
  have hnew : Crates.rsNew 1 1 = .ok () := rfl
  unfold RsStrategy.newOriginWithSeed encode
  simp only [List.isEmpty_iff, hne, hshape, hnew, hshards, hone, hlength]
  exact ⟨_, rfl⟩

/-- A chunk of one byte, and its open. -/
theorem newOrigin_carriable_oneByte : ∃ s,
    RsStrategy.newOriginWithSeed [1] OneShard.config 7 = .ok s ∧ Carriable s := by
  obtain ⟨s, hs⟩ := @newOrigin_oneShard [1] (by simp) (by simp)
  have hfit : ShardsFit 1 OneShard.config := by
    have hfree : ¬ OneShard.config.chunkLen > 0 := Nat.lt_irrefl 0
    rw [ShardsFit, if_neg hfree, maxChunkDataBytes]
    norm_num [OneShard.config]
  exact ⟨s, hs, (newOrigin_carriable_iff wireShard_sha256Len wireShard_rsCorrect wireShard_writes hs).mpr
    hfit⟩

/-- A payload over 1 MiB in one data shard: the chunks an origin dispatches are refused. -/
theorem oneShard_refused {payload : Bytes} (hlt : maxChunkDataBytes < payload.length)
    (hlen : payload.length < 2 ^ 31) : ∃ s,
    RsStrategy.newOriginWithSeed payload OneShard.config 7 = .ok s
    ∧ ∃ d ∈ (s.runOps [.attach 1]).pollChunks.1, maxChunkDataBytes < d.payload.length
      ∧ (writeChunk [] (chunkHeader "c" "m" d.chunkId d.payload) d.payload).1 = .error .invalidInput := by
  have hne : payload ≠ [] := List.length_pos_iff.mp (Nat.zero_lt_of_lt hlt)
  obtain ⟨s, hs⟩ := newOrigin_oneShard hne hlen
  obtain ⟨shards, k, m, chunkLen, henc, hparts, hwhole⟩ :=
    RsStrategy.newOriginWithSeed_ok wireShard_rsCorrect hs
  have hshards := henc.length_shards wireShard_rsCorrect
  have hbounds := henc.shape_bounds wireShard_rsCorrect
  have hshape : (1, 1, payload.length) = (k, m, chunkLen) := by
    rw [← henc.shape]
    simp [resolveShape, OneShard.config, divCeil]
  obtain ⟨-, -, rfl⟩ := Prod.mk.injEq .. ▸ hshape
  obtain ⟨d, hd⟩ := List.exists_mem_of_ne_nil _ (hwhole.first_dispatch hparts (by omega) 1)
  have hpayload : d.payload.length = payload.length :=
    henc.length_of_mem wireShard_rsCorrect
      (List.mem_of_getElem? ((hwhole.runOps [.attach 1]).dispatch_mem hd))
  have hdeclared : (chunkHeader "c" "m" d.chunkId d.payload).dataLength = payload.length := by
    show (if d.payload.length < 2 ^ 32 then d.payload.length else 2 ^ 32 - 1) = _
    rw [hpayload, if_pos (Nat.lt_trans hlen (by decide))]
  refine ⟨s, hs, d, hd, ?_, ?_⟩
  · rw [hpayload]
    exact hlt
  · unfold writeChunk
    rw [hdeclared, if_pos hlt]

/-- One byte more than 1 MiB. -/
theorem newOrigin_not_carriable : ∃ s,
    RsStrategy.newOriginWithSeed (List.replicate 1048577 0) OneShard.config 7 = .ok s
    ∧ ∃ d ∈ (s.runOps [.attach 1]).pollChunks.1, maxChunkDataBytes < d.payload.length
      ∧ (writeChunk [] (chunkHeader "c" "m" d.chunkId d.payload) d.payload).1 = .error .invalidInput := by
  apply oneShard_refused
  · rw [List.length_replicate, maxChunkDataBytes]
    norm_num
  · rw [List.length_replicate]
    norm_num

end OneShard

end Ethp2p
