/-
# Ethp2p.Strategy.Rs.Origin — an origin has every shard, and a poll passes over none.

An origin is built with all shards of its payload, and no operation changes them: a chunk it receives is
redundant or out of range.  What it dispatches is therefore a shard of the encoding; and as no turn of a poll
falls on a shard it lacks, a poll without a dispatch is the end of the work.
-/
import Ethp2p.Strategy.Rs.Starvation

namespace Ethp2p

open Std

namespace RsStrategy

/-- The strategy holds all these shards, and the heap of its planner finds each of them. -/
structure Whole (s : RsStrategy) (shards : List Bytes) : Prop where
  chunks_eq : s.chunks = shards.map some
  numShards_eq : s.planner.numShards = shards.length
  heap : s.planner.HeapRanked

variable {s : RsStrategy} {shards : List Bytes} {p : PeerId} {idx : Nat}

namespace Whole

theorem searchable (h : s.Whole shards) : s.Searchable := by
  refine ⟨h.heap, ?_⟩
  rw [h.chunks_eq, List.length_map, h.numShards_eq]

theorem chunkAt_eq (h : s.Whole shards) (idx : Nat) : s.chunkAt idx = shards[idx]? := by
  rw [chunkAt, h.chunks_eq, List.getD_eq_getElem?_getD, List.getElem?_map]
  cases shards[idx]? <;> rfl

theorem held_iff (h : s.Whole shards) : (s.chunkAt idx).isSome ↔ idx < shards.length := by
  rw [h.chunkAt_eq, isSome_getElem?]

/-- What is dispatched is a shard. -/
theorem dispatch_mem (h : s.Whole shards) {d : ChunkDispatch Nat} (hd : d ∈ s.pollChunks.1) :
    shards[d.chunkId]? = some d.payload := by
  rw [← h.chunkAt_eq]
  exact s.pollChunks_spec.backed d hd

/-- A chunk changes nothing. -/
theorem takeChunk_eq [Crates] (h : s.Whole shards) (idx : Nat) (data : Bytes) :
    (s.takeChunk idx data).2 = s := by
  unfold takeChunk
  split
  · rfl
  split
  · rfl
  case isFalse hfree =>
    cases Ethp2p.verifyChunk s.preamble idx data with
    | accepted =>
      have hset : s.chunks.set idx (some data) = s.chunks := by
        refine List.set_eq_of_length_le ?_
        rw [h.held_iff, Nat.not_lt] at hfree
        rwa [h.chunks_eq, List.length_map]
      show { s with chunks := s.chunks.set idx (some data) } = s
      rw [hset]
    | _ => rfl

/-- **A poll without a dispatch is the end of the work.** -/
theorem poll_complete (h : s.Whole shards) (hnil : s.pollChunks.1 = []) (hp : p ∈ s.attachedPeers)
    (idx : Nat) : ¬ s.Sendable p idx := by
  refine (pollChunks_nil_iff h.searchable).mpr ?_ hnil p hp idx
  rintro ⟨turn, hpasses⟩
  obtain ⟨q, hq, i, hsend⟩ := hpasses.sendable
  obtain ⟨j, hj, hlacks⟩ := hpasses.lacking q hq i hsend
  -- the shard the turn falls on is one of the message, and the origin has them all
  have hfalls := hpasses.turns q (ExtTreeSet.mem_toList.mpr hq)
  rw [show turn q = some j from hj] at hfalls
  have hheld := h.held_iff.mpr (h.numShards_eq ▸ hfalls.isOpen.in_range)
  rw [hlacks] at hheld
  cases hheld

/-- Every operation keeps the shards. -/
theorem applyOp [Crates] (h : s.Whole shards) (op : StrategyOp) : (s.applyOp op).Whole shards := by
  have hheap := applyOp_heapRanked h.heap op
  have hnum := (s.applyOp_stores op).numShards_eq.trans h.numShards_eq
  cases op with
  | take idx data =>
    show (s.takeChunk idx data).2.Whole shards
    rw [h.takeChunk_eq]
    exact h
  | attach | detach | routing => exact ⟨h.chunks_eq, hnum, hheap⟩
  | pollChunks => exact ⟨s.pollChunks_spec.sameStore.chunks_eq.trans h.chunks_eq, hnum, hheap⟩
  | pollRouting force =>
    refine ⟨?_, hnum, hheap⟩
    show (s.pollRouting force).2.chunks = _
    rcases s.pollRouting_cases force with hr | hr <;> rw [hr]
    · exact h.chunks_eq
    · exact h.chunks_eq
  | sent peer handle ok =>
    exact ⟨(s.chunkSent_sameStore peer handle ok).chunks_eq.trans h.chunks_eq, hnum, hheap⟩

theorem runOps [Crates] (h : s.Whole shards) (ops : List StrategyOp) : (s.runOps ops).Whole shards := by
  induction ops generalizing s with
  | nil => exact h
  | cons op ops ih => exact ih (h.applyOp op)

end Whole

/-- An origin is built from the shards of its payload. -/
theorem newOriginWithSeed_ok [Crates] (hrs : RsCorrect) {payload : Bytes} {config : RsConfig}
    {seed : UInt64} (h : newOriginWithSeed payload config seed = .ok s) :
    ∃ shards k m chunkLen, Encoded payload config s.preamble shards k m chunkLen
      ∧ s = withParts config s.preamble (shards.map some) (EmitPlanner.new shards.length seed .origin)
      ∧ s.Whole shards := by
  unfold newOriginWithSeed at h
  split at h
  case h_1 => cases h
  case h_2 preamble shards henc =>
    obtain rfl := Except.ok.inj h
    obtain ⟨k, m, chunkLen, henc⟩ := encode_ok henc
    have hlen := henc.length_shards hrs
    have hbounds := henc.shape_bounds hrs
    have hmod : shards.length % 2 ^ 32 = shards.length := Nat.mod_eq_of_lt (by omega)
    refine ⟨shards, k, m, chunkLen, henc, ?_, rfl, hmod, EmitPlanner.new_heapRanked _ _ _⟩
    rw [hmod]
    rfl

end RsStrategy

end Ethp2p
