/-
# Ethp2p.Reconstruction — a relay session fed an adversarial chunk sequence.

A relay session on the preamble of an encoded message is fed ANY finite sequence of `(index, bytes)`
pairs, `decodeAndFinish` being called as soon as the session is `Decoding`.  What the session ends
up as depends only on WHICH genuine shards occur in the sequence: with at least `num_data` of them
it has reconstructed exactly the published payload, with fewer it is still `Consuming` and holds
exactly those shards.  Duplicates, tampered bytes and out-of-range indices change nothing.

The invariant `Holds D` (the strategy stores exactly the shards of `D`) is preserved by one
`takeChunk` (`Holds.takeChunk`), and the run is an induction over the sequence.
-/
import Ethp2p.Strategy.Rs.OneShard
import Ethp2p.Session

namespace Ethp2p

/-! ## The chunk store as a list of pairs -/

namespace RsStrategy

/-- The shards that are held, with their indices. -/
theorem mem_heldPairs (s : RsStrategy) (i : Nat) (d : Bytes) :
    (i, d) ∈ s.heldPairs ↔ s.chunks[i]? = some (some d) := by
  simp only [heldPairs, List.mem_filterMap, Prod.exists, List.mem_zipIdx_iff_getElem?,
    Option.map_eq_some_iff, Prod.mk.injEq]
  constructor
  · rintro ⟨c, j, hc, d', rfl, rfl, rfl⟩
    exact hc
  · intro h
    exact ⟨some d, i, h, d, rfl, rfl, rfl⟩

theorem heldPairs_fst (s : RsStrategy) :
    s.heldPairs.map Prod.fst = (s.chunks.zipIdx.filter (·.1.isSome)).map Prod.snd := by
  unfold heldPairs
  induction s.chunks.zipIdx with
  | nil => rfl
  | cons a l ih =>
    obtain ⟨c, i⟩ := a
    cases c with
    | none => simpa using ih
    | some d => simpa using ih

/-- No index is held twice. -/
theorem heldPairs_nodup (s : RsStrategy) : (s.heldPairs.map Prod.fst).Nodup := by
  rw [heldPairs_fst]
  refine List.Nodup.sublist (List.filter_sublist.map Prod.snd) ?_
  rw [List.zipIdx_map_snd]
  exact List.nodup_range'

/-- They are as many as the slots that are filled. -/
theorem heldPairs_length (s : RsStrategy) :
    s.heldPairs.length = s.chunks.countP (·.isSome) := by
  rw [← List.length_map (f := Prod.fst), heldPairs_fst, List.length_map, ← List.countP_eq_length_filter]
  conv_rhs => rw [← List.zipIdx_map_fst 0 s.chunks, List.countP_map]
  rfl

end RsStrategy

/-- The number of full slots of a list is the number of its full positions. -/
theorem countP_isSome_eq_card (l : List (Option Bytes)) :
    l.countP (·.isSome) = ((Finset.range l.length).filter fun i => (l.getD i none).isSome).card := by
  induction l using List.reverseRecOn with
  | nil => rfl
  | append_singleton l a ih =>
    rw [List.countP_append, List.length_append, List.length_singleton, Finset.range_add_one,
      Finset.filter_insert, ih]
    have hlast : (l ++ [a]).getD l.length none = a := by simp [List.getD]
    have hinit : (Finset.range l.length).filter (fun i => ((l ++ [a]).getD i none).isSome)
        = (Finset.range l.length).filter (fun i => (l.getD i none).isSome) := by
      refine Finset.filter_congr fun i hi => ?_
      simp [List.getD, List.getElem?_append_left (Finset.mem_range.mp hi)]
    rw [hlast, hinit]
    cases a with
    | none => simp
    | some d => simp

/-! ## Feeding a session -/

section Feed

variable {S ChunkId RoutingUpdate DecodeError : Type}
  [Strategy S ChunkId RoutingUpdate DecodeError]

/-- Take one chunk, and decode if the session is now `Decoding`; the decode results so far are
collected. -/
def feedStep (out : Session S × List (Except SessionError Bytes)) (chunk : ChunkId × Bytes) :
    Session S × List (Except SessionError Bytes) :=
  let session := (out.1.takeChunk chunk.1 chunk.2).2
  if session.state = .decoding then
    (session.decodeAndFinish.2, out.2 ++ [session.decodeAndFinish.1])
  else
    (session, out.2)

/-- Feed a whole sequence of chunks. -/
def feed (session : Session S) (seq : List (ChunkId × Bytes)) :
    Session S × List (Except SessionError Bytes) :=
  seq.foldl feedStep (session, [])

/-- A sequence of chunks, and one more. -/
theorem feed_concat (session : Session S) (seq : List (ChunkId × Bytes))
    (chunk : ChunkId × Bytes) :
    feed session (seq ++ [chunk]) = feedStep (feed session seq) chunk := by
  simp [feed]

end Feed

/-- The indices whose genuine shard occurs in the sequence. -/
def arrived (shards : List Bytes) (seq : List (Nat × Bytes)) : Finset Nat :=
  (Finset.range shards.length).filter fun i => (i, shards.getD i []) ∈ seq

/-- A shard has arrived if one of the chunks is that shard. -/
theorem mem_arrived {shards : List Bytes} {seq : List (Nat × Bytes)} {i : Nat} :
    i ∈ arrived shards seq ↔ ∃ b, shards[i]? = some b ∧ (i, b) ∈ seq := by
  simp only [arrived, Finset.mem_filter, Finset.mem_range]
  constructor
  · rintro ⟨hi, hmem⟩
    rw [List.getD_eq_getElem?_getD, List.getElem?_eq_getElem hi] at hmem
    exact ⟨_, List.getElem?_eq_getElem hi, hmem⟩
  · rintro ⟨b, hb, hmem⟩
    obtain ⟨hi, -⟩ := List.getElem?_eq_some_iff.mp hb
    exact ⟨hi, by rwa [List.getD_eq_getElem?_getD, hb]⟩

/-- One more pair adds its index exactly when it is a genuine shard. -/
theorem arrived_concat (shards : List Bytes) (seq : List (Nat × Bytes)) (idx : Nat) (data : Bytes) :
    arrived shards (seq ++ [(idx, data)])
      = if shards[idx]? = some data then insert idx (arrived shards seq)
        else arrived shards seq := by
  ext i
  have hsplit : i ∈ arrived shards (seq ++ [(idx, data)])
      ↔ i ∈ arrived shards seq ∨ (i = idx ∧ shards[idx]? = some data) := by
    simp only [mem_arrived, List.mem_append, List.mem_singleton, Prod.mk.injEq]
    constructor
    · rintro ⟨b, hb, hmem | ⟨rfl, rfl⟩⟩
      · exact .inl ⟨b, hb, hmem⟩
      · exact .inr ⟨rfl, hb⟩
    · rintro (⟨b, hb, hmem⟩ | ⟨rfl, hb⟩)
      · exact ⟨b, hb, .inl hmem⟩
      · exact ⟨data, hb, .inr ⟨rfl, rfl⟩⟩
  rw [hsplit]
  split
  case isTrue h => simp [h, or_comm]
  case isFalse h => simp [h]

/-! ## The invariant of the chunk store -/

section Relay

variable [Crates] {payload : Bytes} {config : RsConfig} {preamble : Preamble}
  {shards : List Bytes} {k m chunkLen : Nat}

/-- The strategy runs on this preamble and stores exactly the shards of `D`. -/
structure Holds (preamble : Preamble) (shards : List Bytes) (D : Finset Nat) (s : RsStrategy) :
    Prop where
  preamble_eq : s.preamble = preamble
  length_eq : s.chunks.length = shards.length
  chunkAt_eq : ∀ i, s.chunkAt i = if i ∈ D then shards[i]? else none
  subset : ∀ i ∈ D, i < shards.length

namespace Holds

variable {D : Finset Nat} {s : RsStrategy}

omit [Crates] in
/-- What a session holds is what has arrived, in number too. -/
theorem countP_eq (h : Holds preamble shards D s) : s.chunks.countP (·.isSome) = D.card := by
  rw [countP_isSome_eq_card]
  congr 1
  ext i
  have hc := h.chunkAt_eq i
  unfold RsStrategy.chunkAt at hc
  simp only [Finset.mem_filter, Finset.mem_range, h.length_eq, hc]
  constructor
  · rintro ⟨-, hi⟩
    by_contra hD
    simp [hD] at hi
  · intro hD
    have hlt := h.subset i hD
    simp [hD, hlt]

theorem totalShards_eq (h : Holds preamble shards D s)
    (henc : Encoded payload config preamble shards k m chunkLen) (hrs : RsCorrect) :
    s.totalShards = k + m := by
  have hb := henc.shape_bounds hrs
  rw [RsStrategy.totalShards, h.preamble_eq, RsStrategy.totalOf]
  exact asU32_of_toInt (by omega) (toInt_add_of_lt henc.numData henc.numParity (by omega))

/-- **It can reconstruct exactly if `k` distinct shards have arrived.** -/
theorem canReconstruct_iff (h : Holds preamble shards D s)
    (henc : Encoded payload config preamble shards k m chunkLen) (hrs : RsCorrect) :
    s.canReconstruct = decide (k ≤ D.card) := by
  have hb := henc.shape_bounds hrs
  have hcard : D.card ≤ shards.length := by
    simpa using Finset.card_le_card fun i hi => Finset.mem_range.mpr (h.subset i hi)
  have hlen := henc.length_shards hrs
  have hcount : s.acceptedCount = D.card := by
    rw [RsStrategy.acceptedCount, h.countP_eq, Nat.mod_eq_of_lt (by omega)]
  simp [RsStrategy.canReconstruct, hcount, h.preamble_eq, asU32_of_toInt henc.k_lt henc.numData]

/-- With `num_data` shards stored the strategy decodes the payload. -/
theorem decode_ok (h : Holds preamble shards D s)
    (henc : Encoded payload config preamble shards k m chunkLen) (hsha : Sha256Len)
    (hrs : RsCorrect) (hk : k ≤ D.card) : s.reconstruct = .ok payload := by
  rw [RsStrategy.reconstruct, h.preamble_eq]
  refine henc.decode_ok hsha hrs s.heldPairs_nodup ?_ (by rw [s.heldPairs_length, h.countP_eq]; exact hk)
  rintro ⟨i, d⟩ hmem
  have hc := h.chunkAt_eq i
  rw [RsStrategy.chunkAt, List.getD_eq_getElem?_getD, (s.mem_heldPairs i d).mp hmem] at hc
  by_cases hD : i ∈ D
  · simpa [hD] using hc.symm
  · simp [hD] at hc

/-- **One `takeChunk`.**  A genuine shard not yet stored is accepted and stored; anything else
leaves the strategy as it was, and is never both accepted and stored. -/
theorem takeChunk (h : Holds preamble shards D s)
    (henc : Encoded payload config preamble shards k m chunkLen) (hsha : Sha256Len)
    (hrs : RsCorrect) (idx : Nat) (data : Bytes)
    (hcoll : ∀ b, shards[idx]? = some b → sha256 data = sha256 b → data = b) :
    (shards[idx]? = some data ∧ idx ∉ D
      ∧ (s.takeChunk idx data).1 = .ok ⟨.accepted, decide (k ≤ (insert idx D).card)⟩
      ∧ Holds preamble shards (insert idx D) (s.takeChunk idx data).2)
    ∨ ((shards[idx]? = some data → idx ∈ D)
      ∧ (∀ c, (s.takeChunk idx data).1 ≠ .ok ⟨.accepted, c⟩)
      ∧ (s.takeChunk idx data).2 = s) := by
  have htotal := h.totalShards_eq henc hrs
  have hlen := henc.length_shards hrs
  unfold RsStrategy.takeChunk
  -- the guards in the order of the source: range, held already, digest
  by_cases hidx : idx ≥ s.totalShards
  · right
    rw [if_pos hidx]
    refine ⟨fun hs => ?_, by simp, rfl⟩
    obtain ⟨hlt, -⟩ := List.getElem?_eq_some_iff.mp hs
    omega
  rw [if_neg hidx]
  have hlt : idx < shards.length := by omega
  by_cases hD : idx ∈ D
  · right
    have hsome : (s.chunkAt idx).isSome := by simp [h.chunkAt_eq, hD, hlt]
    rw [if_pos hsome]
    exact ⟨fun _ => hD, by simp, rfl⟩
  have hnone : ¬ (s.chunkAt idx).isSome := by simp [h.chunkAt_eq, hD]
  have hverify := henc.verifyChunk_eq hsha hrs idx data
  rw [← h.preamble_eq, List.getElem?_map] at hverify
  rw [if_neg hnone, hverify]
  by_cases hhash : (shards[idx]?).map sha256 = some (sha256 data)
  · left
    rw [if_pos hhash]
    obtain ⟨b, hb, hbh⟩ := Option.map_eq_some_iff.mp hhash
    -- without a collision the digest identifies the shard
    obtain rfl := hcoll b hb hbh.symm
    have hnew : Holds preamble shards (insert idx D)
        { s with chunks := s.chunks.set idx (some data) } := by
      refine ⟨h.preamble_eq, by simpa using h.length_eq, fun i => ?_, fun i hi => ?_⟩
      · have hc := h.chunkAt_eq i
        unfold RsStrategy.chunkAt at hc ⊢
        rw [List.getD_eq_getElem?_getD] at hc ⊢
        by_cases hi : idx = i
        · subst hi
          rw [List.getElem?_set_self (by rw [h.length_eq]; exact hlt)]
          simp [hb]
        · rw [List.getElem?_set_ne hi, hc]
          simp [Ne.symm hi]
      · rcases Finset.mem_insert.mp hi with rfl | hi
        · exact hlt
        · exact h.subset i hi
    exact ⟨hb, hD, by rw [← hnew.canReconstruct_iff henc hrs], hnew⟩
  · right
    rw [if_neg hhash]
    refine ⟨fun hs => ?_, by simp, rfl⟩
    rw [hs] at hhash
    exact absurd rfl hhash

end Holds

/-- A fresh relay strategy on the preamble exists and stores nothing. -/
theorem Encoded.newRelay_ok (henc : Encoded payload config preamble shards k m chunkLen)
    (hsha : Sha256Len) (hrs : RsCorrect) (relayConfig : RsConfig) (seed : UInt64) :
    ∃ s, RsStrategy.newRelayWithSeed preamble relayConfig seed = .ok s
      ∧ Holds preamble shards ∅ s := by
  have hb := henc.shape_bounds hrs
  have htotal : RsStrategy.totalOf preamble = k + m :=
    asU32_of_toInt (by omega) (toInt_add_of_lt henc.numData henc.numParity (by omega))
  refine ⟨RsStrategy.withParts relayConfig preamble (List.replicate (k + m) none)
    (EmitPlanner.new (k + m) seed (.relay relayConfig.forwardMultiplier)), ?_, rfl, ?_,
    fun i => ?_, by simp⟩
  · simp only [RsStrategy.newRelayWithSeed, henc.validatePreamble_ok hsha hrs, htotal]
  · simp [RsStrategy.withParts, henc.length_shards hrs]
  · simp only [RsStrategy.withParts, RsStrategy.chunkAt, List.getD_eq_getElem?_getD,
      List.getElem?_replicate, Finset.notMem_empty, if_false]
    split <;> rfl

/-! ## The run -/

/-- What the session and the decode results look like after a prefix whose genuine shards are
`D`. -/
def FeedInv (payload : Bytes) (preamble : Preamble) (shards : List Bytes) (k : Nat)
    (D : Finset Nat) (out : Session RsStrategy × List (Except SessionError Bytes)) : Prop :=
  (D.card < k ∧ out.1.state = .consuming ∧ out.2 = [] ∧ Holds preamble shards D out.1.strategy)
    ∨ (k ≤ D.card ∧ out.1.state = .reconstructed ∧ out.2 = [.ok payload])

/-- Feeding one more pair keeps the invariant. -/
theorem FeedInv.step {D : Finset Nat} {out : Session RsStrategy × List (Except SessionError Bytes)}
    (h : FeedInv payload preamble shards k D out)
    (henc : Encoded payload config preamble shards k m chunkLen) (hsha : Sha256Len)
    (hrs : RsCorrect) (idx : Nat) (data : Bytes)
    (hcoll : ∀ b, shards[idx]? = some b → sha256 data = sha256 b → data = b) :
    FeedInv payload preamble shards k
      (if shards[idx]? = some data then insert idx D else D) (feedStep out (idx, data)) := by
  rcases h with ⟨hcard, hstate, hres, hholds⟩ | ⟨hcard, hstate, hres⟩
  · rcases hholds.takeChunk henc hsha hrs idx data hcoll with
      ⟨hs, hD, hout, hnew⟩ | ⟨hdup, hne, hsame⟩
    · -- a new genuine shard: the session decodes exactly when it completes the set
      rw [if_pos hs]
      rcases htake : out.1.strategy.takeChunk idx data with ⟨r, s'⟩
      rw [htake] at hout hnew
      simp only at hout hnew
      subst hout
      by_cases hk : k ≤ (insert idx D).card
      · right
        have hdec := hnew.decode_ok henc hsha hrs hk
        simp [feedStep, Session.takeChunk, Session.decodeAndFinish, Strategy.takeChunk,
          Strategy.decode, hstate, htake, hk, hdec, hres]
      · left
        refine ⟨by omega, ?_⟩
        simpa [feedStep, Session.takeChunk, Strategy.takeChunk, hstate, htake, hk, hres] using hnew
    · -- anything else: nothing stored, nothing completed
      have hDeq : (if shards[idx]? = some data then insert idx D else D) = D := by
        split
        case isTrue hs => exact Finset.insert_eq_of_mem (hdup hs)
        case isFalse => rfl
      rw [hDeq]
      left
      refine ⟨hcard, ?_⟩
      rcases htake : out.1.strategy.takeChunk idx data with ⟨r, s'⟩
      rw [htake] at hne hsame
      simp only at hne hsame
      subst hsame
      cases r with
      | error e => simpa [feedStep, Session.takeChunk, Strategy.takeChunk, hstate, htake, hres]
          using hholds
      | ok o =>
        have hv : o.verdict ≠ .accepted := by
          intro hv
          exact hne o.complete (by rw [← hv])
        simpa [feedStep, Session.takeChunk, Strategy.takeChunk, hstate, htake, hv, hres]
          using hholds
  · -- after reconstruction every chunk is surplus
    right
    refine ⟨hcard.trans (Finset.card_le_card ?_), ?_⟩
    · split
      case isTrue => exact Finset.subset_insert idx D
      case isFalse => exact subset_rfl
    · simp [feedStep, Session.takeChunk, hstate, hres]

/-- The invariant holds after any sequence. -/
theorem feedInv_feed (henc : Encoded payload config preamble shards k m chunkLen)
    (hsha : Sha256Len) (hrs : RsCorrect) {s : RsStrategy} (hs : Holds preamble shards ∅ s)
    (seq : List (Nat × Bytes))
    (hcoll : Set.InjOn sha256 {b | b ∈ shards ∨ ∃ i, (i, b) ∈ seq}) :
    FeedInv payload preamble shards k (arrived shards seq) (feed (Session.newRelay s) seq) := by
  induction seq using List.reverseRecOn with
  | nil =>
    left
    have hone := (henc.shape_bounds hrs).1
    have hempty : arrived shards [] = ∅ := by
      ext i
      simp [mem_arrived]
    rw [hempty]
    exact ⟨by rw [Finset.card_empty]; omega, rfl, rfl, hs⟩
  | append_singleton seq x ih =>
    obtain ⟨idx, data⟩ := x
    rw [feed_concat, arrived_concat]
    refine (ih (hcoll.mono ?_)).step henc hsha hrs idx data ?_
    · rintro b (hb | ⟨i, hi⟩)
      · exact .inl hb
      · exact .inr ⟨i, List.mem_append_left _ hi⟩
    · intro b hb hhash
      exact hcoll (.inr ⟨idx, by simp⟩) (.inl (List.mem_of_getElem? hb)) hhash

/-- **A relay reconstructs exactly when enough genuine shards arrived.**  For every encoded message,
every relay configuration and seed, and every sequence of chunks: with at least `num_data` distinct
genuine shards in the sequence the session ends `Reconstructed` and its one decode returned the
payload; with fewer it is still `Consuming`, never decoded, and holds exactly those shards. -/
theorem relay_reconstructs_iff_enough_arrived (hsha : Sha256Len) (hrs : RsCorrect)
    (hencode : encode payload config = .ok (preamble, shards)) (relayConfig : RsConfig)
    (seed : UInt64) (seq : List (Nat × Bytes))
    (hcoll : Set.InjOn sha256 {b | b ∈ shards ∨ ∃ i, (i, b) ∈ seq}) :
    shards.length = asUsize preamble.numData + asUsize preamble.numParity
    ∧ ∃ strategy, RsStrategy.newRelayWithSeed preamble relayConfig seed = .ok strategy
      ∧ (asUsize preamble.numData ≤ (arrived shards seq).card →
          (feed (Session.newRelay strategy) seq).1.state = .reconstructed
          ∧ (feed (Session.newRelay strategy) seq).2 = [.ok payload])
      ∧ ((arrived shards seq).card < asUsize preamble.numData →
          (feed (Session.newRelay strategy) seq).1.state = .consuming
          ∧ (feed (Session.newRelay strategy) seq).2 = []
          ∧ ∀ i, (feed (Session.newRelay strategy) seq).1.strategy.chunkAt i
              = if i ∈ arrived shards seq then shards[i]? else none) := by
  obtain ⟨k, m, chunkLen, henc⟩ := encode_ok hencode
  obtain ⟨s, hnew, hholds⟩ := henc.newRelay_ok hsha hrs relayConfig seed
  rw [henc.asUsize_numData, henc.asUsize_numParity]
  refine ⟨henc.length_shards hrs, s, hnew, ?_⟩
  rcases feedInv_feed henc hsha hrs hholds seq hcoll with
    ⟨hcard, hstate, hres, hfinal⟩ | ⟨hcard, hstate, hres⟩
  · exact ⟨fun h => by omega, fun _ => ⟨hstate, hres, hfinal.chunkAt_eq⟩⟩
  · exact ⟨fun _ => ⟨hstate, hres⟩, fun h => by omega⟩

end Relay

section OneShard

attribute [local instance] oneShard

/-- The message `01` in one data and one parity shard: an out-of-range chunk, a tampered one and the
genuine parity shard. -/
theorem relay_reconstructs_tampered_then_parity :
    encode [1] OneShard.config = .ok (OneShard.preamble, [[1], [1]])
    ∧ ∃ strategy, RsStrategy.newRelayWithSeed OneShard.preamble {} 7 = .ok strategy
      ∧ (feed (Session.newRelay strategy) [(5, [1]), (0, [2]), (1, [1])]).1.state
          = .reconstructed := by
  have hmem : ∀ b : Bytes, (b ∈ [[1], [1]] ∨ ∃ i : Nat, (i, b) ∈ [(5, [1]), (0, [2]), (1, [1])]) →
      b ∈ [[1], [2]] := by
    intro b hb
    simp at hb ⊢
    tauto
  have hinj : ∀ a ∈ [[1], [2]], ∀ b ∈ [[1], [2]], OneShard.digest a = OneShard.digest b → a = b := by
    decide
  obtain ⟨-, strategy, hnew, henough, -⟩ := relay_reconstructs_iff_enough_arrived
    OneShard.sha256Len OneShard.rsCorrect OneShard.encode_eq {} 7 _
    fun a ha b hb hab => hinj a (hmem a ha) b (hmem b hb) hab
  exact ⟨OneShard.encode_eq, strategy, hnew, (henough (by decide)).1⟩

end OneShard

end Ethp2p
