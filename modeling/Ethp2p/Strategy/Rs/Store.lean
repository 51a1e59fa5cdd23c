/-
# Ethp2p.Strategy.Rs.Store — the chunk store.

The number of shards is written down four times: as the length of the chunk vector, as the number of
hashes, in the planner, and as the sum of the preamble's counts, which every accessor computes afresh in
`i32` and casts to `u32`.  Indices are checked against the LAST of these and then used on the first, so
that no index is out of range rests on their being equal (`Intact`), in an origin because the encoder
makes as many shards as it announces, in a relay because of `validate_preamble`.

One operation fills at most one slot, an empty one, with a chunk of the announced digest (`Stores`).
-/
import Ethp2p.Strategy.Rs.Books

namespace Ethp2p

/-! ## Shard counts -/

namespace Preamble

variable {p : Preamble} {k m : Nat}

/-- What `validatePreamble` establishes about the counts, which are `k` and `m`. -/
structure Counts (p : Preamble) (k m : Nat) : Prop where
  numData : p.numData.toInt = k
  numParity : p.numParity.toInt = m
  hashes : p.hashes.length = k + m
  length : 0 ≤ p.length.toInt

/-- The counts of shards fit an `i32`. -/
theorem Counts.lt (h : p.Counts k m) : k < 2 ^ 31 ∧ m < 2 ^ 31 := by
  have hd := p.numData.toInt_lt
  have hp := p.numParity.toInt_lt
  rw [h.numData] at hd
  rw [h.numParity] at hp
  omega

end Preamble

open Preamble

/-- A preamble that was accepted counts its shards. -/
theorem validatePreamble_counts {p : Preamble} (h : validatePreamble p = .ok ()) :
    ∃ k m, p.Counts k m := by
  unfold validatePreamble at h
  split at h
  · cases h
  rename_i hneg
  split at h
  · cases h
  rename_i hlen
  have hnd : ¬ p.numData.toInt < 0 := fun hlt => hneg (.inl hlt)
  have hnp : ¬ p.numParity.toInt < 0 := fun hlt => hneg (.inr hlt)
  have htotal : checkedTotal p = none
      ∨ checkedTotal p = some (p.numData.toInt.toNat + p.numParity.toInt.toNat) := by
    simp only [checkedTotal, u32TryFrom, if_neg hnd, if_neg hnp]
    split <;> simp
  rcases htotal with htotal | htotal <;> rw [htotal] at h
  · cases h
  · dsimp only at h
    split at h
    case isTrue => cases h
    case isFalse hcount =>
      exact ⟨p.numData.toInt.toNat, p.numParity.toInt.toNat, by omega, by omega,
        not_not.mp hcount, by omega⟩

namespace Preamble.Counts

variable {p : Preamble} {k m : Nat}

/-- The cast to `u32` undoes a wrap of the sum, so the relay has a slot for each hash. -/
theorem totalOf_eq (h : p.Counts k m) : RsStrategy.totalOf p = k + m := by
  have hlt := h.lt
  unfold RsStrategy.totalOf asU32
  rw [Int32.toInt_add, h.numData, h.numParity, Int.bmod_def]
  split <;> omega

theorem asUsize_numData (h : p.Counts k m) : asUsize p.numData = k :=
  asUsize_of_toInt h.lt.1 h.numData

theorem asUsize_numParity (h : p.Counts k m) : asUsize p.numParity = m :=
  asUsize_of_toInt h.lt.2 h.numParity

end Preamble.Counts

namespace RsStrategy

variable {s s' s'' : RsStrategy}

/-! ## What an operation does to the store -/

/-- The store of `s'` is that of `s` with some empty slots filled with chunks that `verify_chunk`
accepts. -/
structure Stores [Crates] (s s' : RsStrategy) : Prop where
  preamble_eq : s'.preamble = s.preamble
  length_eq : s'.chunks.length = s.chunks.length
  numShards_eq : s'.planner.numShards = s.planner.numShards
  kept : ∀ i d, s.chunkAt i = some d → s'.chunkAt i = some d
  filled : ∀ i d, s'.chunkAt i = some d → s.chunkAt i = some d
    ∨ verifyChunk s.preamble i d = .accepted

/-- What `take_chunk` can do: refuse, and leave everything as it is, or fill an empty slot. -/
theorem takeChunk_cases [Crates] (s : RsStrategy) (idx : Nat) (data : Bytes) :
    ((s.takeChunk idx data).2 = s
      ∧ ∀ out, (s.takeChunk idx data).1 = .ok out → out.verdict ≠ .accepted)
    ∨ (idx < s.totalShards ∧ s.chunkAt idx = none ∧ verifyChunk s.preamble idx data = .accepted
      ∧ (s.takeChunk idx data).2 = { s with chunks := s.chunks.set idx (some data) }
      ∧ ∃ complete, (s.takeChunk idx data).1 = .ok ⟨.accepted, complete⟩) := by
  unfold takeChunk
  split
  case isTrue => exact .inl ⟨rfl, fun out h => by cases h⟩
  case isFalse hrange =>
    split
    case isTrue =>
      refine .inl ⟨rfl, fun out h => ?_⟩
      cases h
      simp
    case isFalse hempty =>
      cases hverdict : verifyChunk s.preamble idx data with
      | accepted =>
        refine .inr ⟨Nat.lt_of_not_le hrange, ?_, rfl, rfl, _, rfl⟩
        simpa using hempty
      | _ =>
        refine .inl ⟨rfl, fun out h => ?_⟩
        cases h
        simp

section Stores

variable [Crates]

namespace Stores

theorem refl (s : RsStrategy) : Stores s s := ⟨rfl, rfl, rfl, fun _ _ => id, fun _ _ => .inl⟩

theorem trans (h : Stores s s') (h' : Stores s' s'') : Stores s s'' where
  preamble_eq := h'.preamble_eq.trans h.preamble_eq
  length_eq := h'.length_eq.trans h.length_eq
  numShards_eq := h'.numShards_eq.trans h.numShards_eq
  kept i d hd := h'.kept i d (h.kept i d hd)
  filled i d hd := by
    rcases h'.filled i d hd with hold | hnew
    · exact h.filled i d hold
    · exact .inr (h.preamble_eq ▸ hnew)

/-- The store is not touched at all. -/
theorem of_sameStore (h : SameStore s s') (hnum : s'.planner.numShards = s.planner.numShards) :
    Stores s s' where
  preamble_eq := h.preamble_eq
  length_eq := congrArg List.length h.chunks_eq
  numShards_eq := hnum
  kept i _ hd := (h.chunkAt_eq i).trans hd
  filled i _ hd := .inl ((h.chunkAt_eq i).symm.trans hd)

end Stores

/-- A chunk that is accepted goes into an empty slot. -/
theorem takeChunk_stores (s : RsStrategy) (idx : Nat) (data : Bytes) :
    Stores s (s.takeChunk idx data).2 := by
  rcases s.takeChunk_cases idx data with ⟨hsame, -⟩ | ⟨-, hempty, haccepted, hset, -⟩
  · rw [hsame]
    exact .refl s
  · have hget : ∀ i d, ({ s with chunks := s.chunks.set idx (some data) } : RsStrategy).chunkAt i = some d ↔
        if idx = i then i < s.chunks.length ∧ data = d else s.chunkAt i = some d := by
      intro i d
      simp only [chunkAt, List.getD_eq_getElem?_getD, List.getElem?_set]
      by_cases hi : idx = i
      · by_cases hlt : i < s.chunks.length <;> simp [hi, hlt]
      · simp [hi]
    rw [hset]
    refine ⟨rfl, List.length_set .., rfl, fun i d hd => ?_, fun i d hd => ?_⟩
    · refine (hget i d).mpr ?_
      rw [if_neg, hd]
      rintro rfl
      rw [hempty] at hd
      cases hd
    · have hd' := (hget i d).mp hd
      split at hd'
      case isTrue hi =>
        obtain ⟨-, rfl⟩ := hd'
        exact .inr (hi ▸ haccepted)
      case isFalse => exact .inl hd'

/-- **What an operation does to the store.** -/
theorem applyOp_stores (s : RsStrategy) (op : StrategyOp) : Stores s (s.applyOp op) := by
  cases op with
  | take idx data => exact s.takeChunk_stores idx data
  | attach peer => exact .of_sameStore (s.attachPeer_sameStore peer) rfl
  | detach peer completed =>
    exact .of_sameStore (s.detachPeer_sameStore peer completed) (s.planner.removePeer_numShards peer)
  | routing peer update => exact .of_sameStore ⟨rfl, rfl, rfl⟩ rfl
  | pollChunks => exact .of_sameStore s.pollChunks_spec.sameStore (pollPeers_numShards _ s)
  | pollRouting force =>
    rw [applyOp]
    rcases s.pollRouting_cases force with hr | hr <;> rw [hr]
    · exact .refl s
    · exact .of_sameStore ⟨rfl, rfl, rfl⟩ rfl
  | sent peer handle ok =>
    exact .of_sameStore (s.chunkSent_sameStore peer handle ok) (s.numShards_chunkSent peer handle ok)

/-- A shard that is stored stays, whatever is done to the strategy. -/
theorem runOps_stores (s : RsStrategy) (ops : List StrategyOp) : Stores s (s.runOps ops) := by
  induction ops generalizing s with
  | nil => exact .refl s
  | cons op ops ih => exact (s.applyOp_stores op).trans (ih _)

/-- Every operation leaves the heap sound. -/
theorem applyOp_heapSound (h : s.planner.HeapSound) (op : StrategyOp) :
    (s.applyOp op).planner.HeapSound := by
  cases op with
  | take idx data =>
    obtain ⟨chunks, hchunks⟩ := s.takeChunk_eq idx data
    rw [applyOp, hchunks]
    exact h
  | attach peer => exact h
  | detach peer completed => exact h.removePeer peer
  | routing peer update => exact h.congr rfl rfl rfl
  | pollChunks => exact pollPeers_heapSound _ h
  | pollRouting force =>
    rw [applyOp, pollRouting_planner]
    exact h
  | sent peer handle ok => exact chunkSent_heapSound h peer handle ok

/-- The heap is sound after every sequence of operations. -/
theorem runOps_heapSound (h : s.planner.HeapSound) (ops : List StrategyOp) :
    (s.runOps ops).planner.HeapSound := by
  induction ops generalizing s with
  | nil => exact h
  | cons op ops ih => exact ih (applyOp_heapSound h op)

end Stores

/-! ## Integrity -/

/-- The four shard counts are equal, and every chunk has its announced digest. -/
structure Intact [Crates] (s : RsStrategy) : Prop where
  slots : s.chunks.length = s.totalShards
  planned : s.planner.numShards = s.totalShards
  hashes : s.preamble.hashes.length = s.totalShards
  stored : ∀ i d, s.chunkAt i = some d → s.preamble.hashes[i]? = some (sha256 d)

section Intact

variable [Crates]

/-- A store that only fills up stays intact. -/
theorem Intact.stores (h : s.Intact) (hstores : Stores s s') : s'.Intact := by
  have htotal : s'.totalShards = s.totalShards := congrArg totalOf hstores.preamble_eq
  refine ⟨?_, ?_, ?_, fun i d hd => ?_⟩
  · rw [hstores.length_eq, htotal, h.slots]
  · rw [hstores.numShards_eq, htotal, h.planned]
  · rw [hstores.preamble_eq, htotal, h.hashes]
  · rw [hstores.preamble_eq]
    rcases hstores.filled i d hd with hold | hnew
    · exact h.stored i d hold
    · exact verifyChunk_accepted hnew

/-- **A strategy that was just built is intact**: an origin has all shards, a relay none. -/
theorem Built.intact (h : s.Built) (hrs : RsCorrect) : s.Intact := by
  -- an origin holds every shard it has hashed; a relay starts with none
  rcases h with ⟨payload, config, seed, h⟩ | ⟨preamble, config, seed, h⟩
  · unfold newOriginWithSeed at h
    split at h
    case h_1 => cases h
    case h_2 preamble shards henc =>
      obtain rfl := Except.ok.inj h
      obtain ⟨k, m, chunkLen, henc⟩ := encode_ok henc
      have hlen := henc.length_shards hrs
      have hbounds := henc.shape_bounds hrs
      have htotal : totalOf preamble = k + m := by
        refine asU32_of_toInt (by omega) ?_
        exact toInt_add_of_lt henc.numData henc.numParity (by omega)
      refine ⟨?_, ?_, ?_, fun i d hd => ?_⟩
      · show (shards.map some).length = totalOf preamble
        rw [List.length_map, hlen, htotal]
      · show shards.length % 2 ^ 32 = totalOf preamble
        rw [hlen, htotal, Nat.mod_eq_of_lt (by omega)]
      · show preamble.hashes.length = totalOf preamble
        rw [henc.hashes, List.length_map, hlen, htotal]
      · show preamble.hashes[i]? = _
        have hd' : (shards.map some).getD i none = some d := hd
        rw [List.getD_eq_getElem?_getD, List.getElem?_map] at hd'
        rw [henc.hashes, List.getElem?_map]
        cases hi : shards[i]? with
        | none => simp [hi] at hd'
        | some b => simp_all
  · unfold newRelayWithSeed at h
    split at h
    case h_1 => cases h
    case h_2 hvalid =>
      obtain rfl := Except.ok.inj h
      obtain ⟨k, m, hcounts⟩ := validatePreamble_counts hvalid
      refine ⟨List.length_replicate, rfl, hcounts.hashes.trans hcounts.totalOf_eq.symm, fun i d hd => ?_⟩
      have hd' : (List.replicate (totalOf preamble) (none : Option Bytes)).getD i none = some d := hd
      rw [List.getD_eq_getElem?_getD, List.getElem?_replicate] at hd'
      split at hd' <;> cases hd'

/-- **The chunk store stays intact**, whatever is done to it: the shard counts agree, every chunk has its
announced digest, no chunk is replaced or lost, a chunk that is not accepted changes nothing at all, and
every dispatch carries the stored chunk. -/
theorem runOps_intact (hrs : RsCorrect) (hs : s.Built) (ops : List StrategyOp) :
    ((s.runOps ops).chunks.length = (s.runOps ops).totalShards
      ∧ (s.runOps ops).planner.numShards = (s.runOps ops).totalShards
      ∧ (s.runOps ops).preamble.hashes.length = (s.runOps ops).totalShards)
    ∧ (∀ i d, (s.runOps ops).chunkAt i = some d →
      (s.runOps ops).preamble.hashes[i]? = some (sha256 d))
    ∧ (∀ more i d, (s.runOps ops).chunkAt i = some d →
      ((s.runOps ops).runOps more).chunkAt i = some d)
    ∧ (∀ idx data, (∀ out, ((s.runOps ops).takeChunk idx data).1 = .ok out → out.verdict ≠ .accepted) →
      ((s.runOps ops).takeChunk idx data).2 = s.runOps ops)
    ∧ ∀ d ∈ (s.runOps ops).pollChunks.1, (s.runOps ops).chunkAt d.chunkId = some d.payload := by
  have hintact := (hs.intact hrs).stores (s.runOps_stores ops)
  refine ⟨⟨hintact.slots, hintact.planned, hintact.hashes⟩, hintact.stored, fun more i d hd => ?_,
    fun idx data hrefused => ?_, (s.runOps ops).pollChunks_spec.backed⟩
  · exact ((s.runOps ops).runOps_stores more).kept i d hd
  · rcases (s.runOps ops).takeChunk_cases idx data with ⟨hsame, -⟩ | ⟨-, -, -, -, complete, haccepted⟩
    · exact hsame
    · exact absurd rfl (hrefused _ haccepted)

end Intact

section OneShard

attribute [local instance] oneShard

/-- A relay is offered a tampered chunk, one out of range, and two good ones. -/
theorem runOps_intact_tampered :
    (OneShard.relay.runOps [.take 0 [2], .take 7 [1], .take 1 [1], .take 1 [2], .take 0 [1]]).chunks
      = [some [1], some [1]]
    ∧ ∀ i d, (OneShard.relay.runOps
        [.take 0 [2], .take 7 [1], .take 1 [1], .take 1 [2], .take 0 [1]]).chunkAt i = some d →
      OneShard.preamble.hashes[i]? = some (sha256 d) :=
  ⟨by decide +kernel, (runOps_intact OneShard.rsCorrect (.inr ⟨_, _, _, OneShard.newRelay_eq⟩) _).2.1⟩

end OneShard

end RsStrategy

end Ethp2p
