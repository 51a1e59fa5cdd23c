/-
# Ethp2p.Strategy.Rs.Layout — where the bytes of a message go (`encode.rs`).

`encode` divides the message length by a shard count or a shard length, cuts the message into chunks and
copies chunk `i` over the front of shard `i`.  Rust panics where a divisor is zero, a chunk length is zero, or
an index is out of range; `encode?` is `encode` with these checks, `none` being the panic.  That it never is
(`encode?_eq`) rests on the rounding: there are never more chunks than data shards, because the shard length
was rounded UP.  Shards behind the last chunk stay zero.
-/
import Ethp2p.Strategy.Rs.OneShard

namespace Ethp2p

/-! ## The checks -/

/-- `usize::div_ceil`; a zero divisor panics. -/
def divCeil? (a b : Nat) : Option Nat := if b = 0 then none else some (divCeil a b)

/-- `slice::chunks`; a zero length panics. -/
def chunks? (len : Nat) (l : Bytes) : Option (List Bytes) := if len = 0 then none else some (chunksOf len l)

/-- `shards[i][..chunk.len()].copy_from_slice(chunk)`; an index out of range panics. -/
def copyChunk? (shards : List Bytes) (i : Nat) (chunk : Bytes) : Option (List Bytes) :=
  match shards[i]? with
  | none => none
  | some shard =>
    if shard.length < chunk.length then
      none
    else
      some (shards.set i (chunk ++ shard.drop chunk.length))

/-- Copy the chunks over the shards from the `i`-th on. -/
def copyChunks? (shards : List Bytes) (i : Nat) : List Bytes → Option (List Bytes)
  | [] => some shards
  | chunk :: chunks =>
    match copyChunk? shards i chunk with
    | none => none
    | some shards => copyChunks? shards (i + 1) chunks

/-- `resolve_shape`. -/
def resolveShape? (payloadLen : Nat) (config : RsConfig) : Option (Nat × Nat × Nat) :=
  if config.chunkLen > 0 then
    (divCeil? payloadLen config.chunkLen).map fun dataShards => (dataShards, dataShards, config.chunkLen)
  else
    (divCeil? payloadLen config.dataShards).map fun chunkLen =>
      (config.dataShards, config.parityShards, chunkLen)

/-- The filled shards. -/
def fillShards? (total chunkLen : Nat) (payload : Bytes) : Option (List Bytes) :=
  match chunks? chunkLen payload with
  | none => none
  | some chunks => copyChunks? (List.replicate total (List.replicate chunkLen 0)) 0 chunks

/-- `encode`; `none` if it panics. -/
def encode? [Crates] (payload : Bytes) (config : RsConfig) :
    Option (Except EncodeError (Preamble × List Bytes)) :=
  if payload.isEmpty then
    some (.error .emptyPayload)
  else
    match resolveShape? payload.length config with
    | none => none
    | some (dataShards, parityShards, chunkLen) =>
      let total := dataShards + parityShards
      match Crates.rsNew dataShards parityShards with
      | .error e => some (.error (.rs e))
      | .ok () =>
        match fillShards? total chunkLen payload with
        | none => none
        | some shards =>
          match Crates.rsEncode dataShards parityShards shards with
          | .error e => some (.error (.rs e))
          | .ok shards =>
            match i32TryFrom dataShards, i32TryFrom parityShards, i32TryFrom payload.length with
            | some numData, some numParity, some length =>
              some (.ok ({ numData, numParity, length, hashes := shards.map sha256, hash := sha256 payload },
                shards))
            | _, _, _ => some (.error .shardCountOverflow)

/-! ## No check fails -/

/-- So many chunks are enough. -/
theorem divCeil_le {len c k : Nat} (hc : 0 < c) : divCeil len c ≤ k ↔ len ≤ k * c := by
  rw [← not_lt, ← not_lt, lt_divCeil hc]

/-- The last chunk is not empty. -/
theorem divCeil_padding_lt {len c : Nat} (hlen : 0 < len) (hc : 0 < c) : divCeil len c * c - len < c := by
  have hpos : 0 < divCeil len c := (lt_divCeil hc).mpr (by rwa [Nat.zero_mul])
  have hlast : (divCeil len c - 1) * c < len := (lt_divCeil hc).mp (by omega)
  have hsplit : divCeil len c * c = (divCeil len c - 1) * c + c := by
    rw [← Nat.succ_mul, Nat.succ_eq_add_one, Nat.sub_add_cancel hpos]
  omega

/-- Chunks that fit are copied, each over its shard. -/
theorem copyChunks?_eq (len : Nat) {chunks shards : List Bytes} {i : Nat}
    (hroom : i + chunks.length ≤ shards.length) (hchunks : ∀ chunk ∈ chunks, chunk.length ≤ len)
    (hshards : ∀ shard ∈ shards, shard.length = len) :
    copyChunks? shards i chunks = some (shards.mapIdx fun j shard =>
      match if i ≤ j then chunks[j - i]? else none with
      | some chunk => chunk ++ shard.drop chunk.length
      | none => shard) := by
  induction chunks generalizing shards i with
  | nil =>
    rw [copyChunks?]
    refine congrArg some (List.ext_getElem? fun j => ?_)
    simp
  | cons chunk chunks ih =>
    rw [List.length_cons] at hroom
    have hi : i < shards.length := by omega
    have hshard := hshards shards[i] (List.getElem_mem hi)
    have hchunk := hchunks chunk List.mem_cons_self
    have hcopy : copyChunk? shards i chunk
        = some (shards.set i (chunk ++ shards[i].drop chunk.length)) := by
      rw [copyChunk?, List.getElem?_eq_getElem hi]
      exact if_neg (by omega)
    rw [copyChunks?, hcopy]
    dsimp only
    rw [ih (by rw [List.length_set]; omega) (fun c hc => hchunks c (List.mem_cons_of_mem chunk hc)) ?_]
    · refine congrArg some (List.ext_getElem? fun j => ?_)
      simp only [List.getElem?_mapIdx, List.getElem?_set]
      -- a shard before the one that is filled now, that one, or a later one
      rcases Nat.lt_trichotomy j i with hlt | rfl | hgt
      · rw [if_neg (show ¬ i = j by omega), if_neg (show ¬ i + 1 ≤ j by omega),
          if_neg (show ¬ i ≤ j by omega)]
      · rw [if_pos rfl, if_pos hi, if_neg (show ¬ j + 1 ≤ j by omega), if_pos le_rfl,
          List.getElem?_eq_getElem hi]
        simp
      · have hsub : j - i = j - (i + 1) + 1 := by omega
        rw [if_neg (show ¬ i = j by omega), if_pos (show i + 1 ≤ j by omega), if_pos (show i ≤ j by omega),
          hsub, List.getElem?_cons_succ]
    · intro shard hmem
      rcases List.mem_or_eq_of_mem_set hmem with hmem | rfl
      · exact hshards shard hmem
      · rw [List.length_append, List.length_drop]
        omega

/-- The checked loop fills the shards as the loop does: no index of it is out of range. -/
theorem fillShards?_eq {total chunkLen : Nat} {payload : Bytes} (hpos : 0 < chunkLen)
    (hcovers : payload.length ≤ total * chunkLen) :
    fillShards? total chunkLen payload = some (fillShards total chunkLen payload) := by
  have hcount : (chunksOf chunkLen payload).length ≤ total := by
    rw [chunksOf, List.length_map, List.length_range]
    exact (divCeil_le hpos).mpr hcovers
  rw [fillShards?, chunks?, if_neg hpos.ne']
  dsimp only
  rw [copyChunks?_eq chunkLen (by simpa using hcount) ?_ (by simp +contextual), fillShards]
  · refine congrArg some (congrArg (List.mapIdx · _) (funext fun j => funext fun shard => ?_))
    -- the copies begin at the first shard
    generalize hget : (if 0 ≤ j then (chunksOf chunkLen payload)[j - 0]? else none) = found
    rw [if_pos (Nat.zero_le j), Nat.sub_zero] at hget
    subst hget
    rfl
  · intro chunk hchunk
    obtain ⟨i, -, rfl⟩ := List.mem_map.mp hchunk
    exact List.length_take_le _ _

/-- The checked shape is the shape, if the data shards are not zero. -/
theorem resolveShape?_eq {config : RsConfig} (hdata : config.dataShards ≠ 0) (len : Nat) :
    resolveShape? len config = some (resolveShape len config) := by
  unfold resolveShape? resolveShape
  split
  case isTrue hfixed => rw [divCeil?, if_neg (Nat.ne_of_gt hfixed), Option.map_some]
  case isFalse => rw [divCeil?, if_neg hdata, Option.map_some]

/-- There is a data shard. -/
theorem resolveShape_pos {config : RsConfig} {len k m chunkLen : Nat} (hdata : config.dataShards ≠ 0)
    (hlen : 0 < len) (h : resolveShape len config = (k, m, chunkLen)) : 1 ≤ k := by
  unfold resolveShape at h
  split at h
  case isTrue hfixed =>
    obtain ⟨rfl, -⟩ := Prod.mk.inj h
    exact (lt_divCeil hfixed).mpr (by rwa [Nat.zero_mul])
  case isFalse =>
    obtain ⟨rfl, -⟩ := Prod.mk.inj h
    exact Nat.pos_of_ne_zero hdata

/-- The constructor refuses a configuration without data shards. -/
theorem RsConfig.new_dataShards {dataShards parityShards chunkLen bitmapThreshold : Nat}
    {forwardMultiplier : UInt32} {disableBitmap : Bool} {config : RsConfig}
    (h : RsConfig.new dataShards parityShards chunkLen bitmapThreshold forwardMultiplier disableBitmap
      = .ok config) : config.dataShards ≠ 0 := by
  unfold RsConfig.new at h
  split_ifs at h with hzero
  obtain rfl := Except.ok.inj h
  exact hzero

section

variable [Crates] {config : RsConfig} {payload : Bytes}

/-- **`encode` does not panic** on a configuration with a data shard. -/
theorem encode?_eq (hdata : config.dataShards ≠ 0) (payload : Bytes) :
    encode? payload config = some (encode payload config) := by
  unfold encode? encode
  by_cases hempty : payload.isEmpty
  · rw [if_pos hempty, if_pos hempty]
  · rw [if_neg hempty, if_neg hempty, resolveShape?_eq hdata]
    have hlen : 0 < payload.length := List.length_pos_iff.mpr (by simpa using hempty)
    rcases hshape : resolveShape payload.length config with ⟨k, m, chunkLen⟩
    obtain ⟨hpos, hcovers⟩ := resolveShape_covers hshape hlen (resolveShape_pos hdata hlen hshape)
    have hfill := @fillShards?_eq (k + m) chunkLen payload hpos
      (hcovers.trans (Nat.mul_le_mul_right chunkLen (Nat.le_add_right k m)))
    dsimp only
    cases Crates.rsNew k m with
    | error e => rfl
    | ok =>
      simp only [hfill]
      cases Crates.rsEncode k m (fillShards (k + m) chunkLen payload) with
      | error e => rfl
      | ok shards =>
        cases i32TryFrom k <;> cases i32TryFrom m <;> cases i32TryFrom payload.length <;> rfl

/-! ## The layout -/

/-- **Where the bytes are**: `k` data and `m` parity shards of one length, the message in the data shards with
nothing but zeros behind it.  A fixed chunk length is the shards' length and gives their number, and less
than a shard is padding; otherwise the configured number gives their length. -/
structure Layout (payload : Bytes) (config : RsConfig) (preamble : Preamble) (shards : List Bytes)
    (k m chunkLen : Nat) : Prop where
  numData : preamble.numData.toInt = k
  numParity : preamble.numParity.toInt = m
  count : shards.length = k + m
  common : ∀ shard ∈ shards, shard.length = chunkLen
  pos : 1 ≤ chunkLen
  covers : payload.length ≤ k * chunkLen
  data : (shards.take k).flatten = payload ++ List.replicate (k * chunkLen - payload.length) 0
  fixed : 0 < config.chunkLen → chunkLen = config.chunkLen ∧ k = divCeil payload.length config.chunkLen
    ∧ m = k ∧ k * chunkLen - payload.length < chunkLen
  split : config.chunkLen = 0 → chunkLen = divCeil payload.length config.dataShards
    ∧ k = config.dataShards ∧ m = config.parityShards
  length : preamble.length.toInt = payload.length

/-- **What was encoded is laid out as it says.** -/
theorem Encoded.layout {preamble : Preamble} {shards : List Bytes} {k m chunkLen : Nat}
    (h : Encoded payload config preamble shards k m chunkLen) (hdata : config.dataShards ≠ 0)
    (hkeeps : RsKeepsData) : Layout payload config preamble shards k m chunkLen := by
  have hlen := List.length_pos_iff.mpr h.nonempty
  obtain ⟨hpos, hcovers⟩ := resolveShape_covers h.shape hlen (resolveShape_pos hdata hlen h.shape)
  have hlengths := h.map_length_of_keepsData hkeeps hpos
  refine ⟨h.numData, h.numParity, ?_, fun shard hshard => ?_, hpos, hcovers,
    h.flatten_of_keepsData hkeeps hpos hcovers, fun hfixed => ?_, fun hsplit => ?_, h.length⟩
  · simpa using congrArg List.length hlengths
  · have hmem : shard.length ∈ shards.map List.length := List.mem_map_of_mem hshard
    rw [hlengths] at hmem
    exact List.eq_of_mem_replicate hmem
  · have hshape := h.shape
    rw [resolveShape, if_pos hfixed] at hshape
    obtain ⟨rfl, hrest⟩ := Prod.mk.inj hshape
    obtain ⟨rfl, rfl⟩ := Prod.mk.inj hrest
    exact ⟨rfl, rfl, rfl, divCeil_padding_lt hlen hfixed⟩
  · have hshape := h.shape
    rw [resolveShape, if_neg (by omega)] at hshape
    obtain ⟨rfl, hrest⟩ := Prod.mk.inj hshape
    obtain ⟨rfl, rfl⟩ := Prod.mk.inj hrest
    exact ⟨rfl, rfl, rfl⟩

/-- **Encoding a message.**  With a configuration that `RsConfig::new` accepts, `encode` does not panic on a
message, and when it succeeds the shards are laid out as they should be. -/
theorem encode_layout (hkeeps : RsKeepsData)
    {dataShards parityShards chunkLen bitmapThreshold : Nat} {forwardMultiplier : UInt32} {disableBitmap : Bool}
    (hnew : RsConfig.new dataShards parityShards chunkLen bitmapThreshold forwardMultiplier disableBitmap
      = .ok config) :
    encode? payload config = some (encode payload config)
    ∧ ∀ preamble shards, encode payload config = .ok (preamble, shards) →
      ∃ k m len, Layout payload config preamble shards k m len := by
  have hdata := RsConfig.new_dataShards hnew
  refine ⟨encode?_eq hdata payload, fun preamble shards hok => ?_⟩
  obtain ⟨k, m, len, hencoded⟩ := encode_ok hok
  exact ⟨k, m, len, hencoded.layout hdata hkeeps⟩

end

section

attribute [local instance] oneShard

/-- One data and one parity shard. -/
def pairConfig : RsConfig := { dataShards := 1, parityShards := 1 }

/-- The message `01` in one data and one parity shard. -/
theorem encode_layout_oneByte :
    encode? [1] pairConfig = some (encode [1] pairConfig)
    ∧ ∃ k m len, Layout [1] pairConfig OneShard.preamble [[1], [1]] k m len := by
  have hnew : RsConfig.new 1 1 0 50 4 false = .ok pairConfig := rfl
  obtain ⟨hpanics, hlayout⟩ :=
    @encode_layout oneShard pairConfig [1] OneShard.rsCorrect.keepsData 1 1 0 50 4 false hnew
  exact ⟨hpanics, hlayout OneShard.preamble [[1], [1]] (by decide)⟩

end

end Ethp2p
