/-
# Ethp2p.Strategy.Rs.Starvation — when an empty poll means that nothing can be sent.

`drain_session` stops at the first poll that returns no dispatch.  A poll asks the planner once for each
attached peer, and the planner searches ALL shards of the message: when the cheapest one open to the peer is
not held, the peer is skipped, whatever else could have been sent to it.  An empty poll is therefore the end
of the work except in one situation, which `PassesOver` describes from the counts, the havelists, the flights
and the held shards before the poll.

A turn on a shard that is not held leaves alone what can be sent to whom, because it raises the count of that
shard only (`countAtTurn_of_held`).  So the turns of an empty poll can be judged by the state before it.
-/
import Ethp2p.Strategy.Rs.Flights
import Ethp2p.Strategy.Rs.Turns

namespace Ethp2p

open Std

namespace RsStrategy

/-- The strategy holds the shard, the peer is not taken to have it, it is not in flight to the peer, and
a relay has forwarded it less than `forward_multiplier` times. -/
structure Sendable (s : RsStrategy) (p : PeerId) (idx : Nat) : Prop where
  held : (s.chunkAt idx).isSome
  not_had : ∀ b ∈ (s.planner.peerState p).optimisticHavelist, b.get idx = false
  not_flying : idx ∉ s.planner.inFlightTo p
  below_cap : ∀ cap ∈ s.planner.cap, s.planner.allocationCount idx < cap

/-- A shard could be sent, and whichever peer one could be sent to has its turn on a cheaper one that the
strategy lacks. -/
structure PassesOver (s : RsStrategy) (turn : PeerId → Option Nat) : Prop where
  turns : s.Turns turn
  sendable : ∃ p ∈ s.attachedPeers, ∃ idx, s.Sendable p idx
  lacking : ∀ p ∈ s.attachedPeers, ∀ idx, s.Sendable p idx → ∃ i ∈ turn p, s.chunkAt i = none

/-! ## Turns on shards that are not held -/

/-- The heap ranks the shards by their counts, and can find every one the strategy has a slot for. -/
structure Searchable (s : RsStrategy) : Prop where
  heap : s.planner.HeapRanked
  slots : s.chunks.length ≤ s.planner.numShards

variable {s : RsStrategy} {p : PeerId} {idx : Nat} {turn : PeerId → Option Nat}

theorem Searchable.lt_of_held (h : s.Searchable) (hheld : (s.chunkAt idx).isSome) :
    idx < s.planner.numShards := by
  refine Nat.lt_of_lt_of_le ?_ h.slots
  by_contra hle
  rw [chunkAt, List.getD_eq_getElem?_getD, List.getElem?_eq_none (Nat.not_lt.mp hle)] at hheld
  cases hheld

/-- As long as the turns fall on shards that are not held, the counts of the held ones stay. -/
theorem countAtTurn_of_held
    (hlacking : ∀ q ∈ s.attachedPeers, q < p → ∀ i ∈ turn q, s.chunkAt i = none)
    (hheld : (s.chunkAt idx).isSome) : s.countAtTurn turn p idx = s.planner.allocationCount idx := by
  have hnone : (s.attachedPeers.toList.countP fun q => q < p ∧ turn q = some idx) = 0 := by
    refine List.countP_eq_zero.mpr fun q hq => ?_
    simp only [decide_eq_true_eq]
    rintro ⟨hlt, hturn⟩
    rw [hlacking q (ExtTreeSet.mem_toList.mp hq) hlt idx hturn] at hheld
    cases hheld
  rw [countAtTurn, EmitPlanner.countAtTurn, hnone]
  exact Nat.mod_eq_of_lt (s.planner.allocationCount_lt idx)

/-- The planner may allocate what can be sent. -/
theorem Sendable.openAt (h : s.Sendable p idx) (hsearch : s.Searchable) {count : Nat → Nat}
    (hcount : count idx = s.planner.allocationCount idx) : s.planner.OpenAt count p idx where
  in_range := hsearch.lt_of_held h.held
  below_cap cap hcap := hcount ▸ h.below_cap cap hcap
  not_had := h.not_had
  not_flying := h.not_flying

/-- A held shard that the planner may allocate can be sent. -/
theorem sendable_of_openAt {count : Nat → Nat} (hopen : s.planner.OpenAt count p idx)
    (hheld : (s.chunkAt idx).isSome) (hcount : count idx = s.planner.allocationCount idx) :
    s.Sendable p idx where
  held := hheld
  not_had := hopen.not_had
  not_flying := hopen.not_flying
  below_cap cap hcap := hcount ▸ hopen.below_cap cap hcap

/-! ## One poll -/

/-- If the turns of the peers to which a shard could be sent fall on shards that are not held, all turns do. -/
theorem PassesOver.turn_lacking (h : s.PassesOver turn) :
    ∀ p ∈ s.attachedPeers, ∀ i ∈ turn p, s.chunkAt i = none := by
  -- by induction on the peer: the turns before its own have left the counts of the held shards alone
  suffices hbelow : ∀ n, ∀ p ∈ s.attachedPeers, p.toNat = n → ∀ i ∈ turn p, s.chunkAt i = none from
    fun p hp => hbelow p.toNat p hp rfl
  intro n
  induction n using Nat.strongRecOn with
  | ind n ih =>
    rintro p hp rfl i hi
    by_contra hheld
    have hheld : (s.chunkAt i).isSome := Option.isSome_iff_ne_none.mpr hheld
    have hcount : s.countAtTurn turn p i = s.planner.allocationCount i :=
      countAtTurn_of_held (fun q hq hlt => ih q.toNat (UInt64.lt_iff_toNat_lt.mp hlt) q hq rfl) hheld
    have hfalls := h.turns p (ExtTreeSet.mem_toList.mpr hp)
    rw [show turn p = some i from hi] at hfalls
    -- the shard the turn falls on could be sent, so the turn falls on one that is not held
    obtain ⟨j, hj, hlacks⟩ := h.lacking p hp i (sendable_of_openAt hfalls.isOpen hheld hcount)
    obtain rfl : i = j := Option.some.inj (hi.symm.trans hj)
    rw [hlacks] at hheld
    cases hheld

/-- An empty poll leaves nothing to send, unless it passed over a held shard. -/
theorem pollChunks_nil_iff (h : s.Searchable) :
    (s.pollChunks.1 = [] → ∀ p ∈ s.attachedPeers, ∀ idx, ¬ s.Sendable p idx)
      ↔ ¬ ∃ turn, s.PassesOver turn := by
  constructor
  · rintro hcomplete ⟨turn, hpasses⟩
    obtain ⟨p, hp, idx, hsend⟩ := hpasses.sendable
    have hempty := (pollChunks_nil_iff_turns h.heap hpasses.turns).mpr hpasses.turn_lacking
    exact hcomplete hempty p hp idx hsend
  · intro hnot hempty p hp idx hsend
    obtain ⟨turn, hturns⟩ := s.exists_turns
    have hlacking := (pollChunks_nil_iff_turns h.heap hturns).mp hempty
    refine hnot ⟨turn, hturns, ⟨p, hp, idx, hsend⟩, fun q hq i hi => ?_⟩
    have hopen : s.planner.OpenAt (s.countAtTurn turn q) q i :=
      hi.openAt h (countAtTurn_of_held (fun r hr _ => hlacking r hr) hi.held)
    have hfalls := hturns q (ExtTreeSet.mem_toList.mpr hq)
    cases hturn : turn q with
    | none =>
      rw [hturn] at hfalls
      exact absurd hopen (hfalls i)
    | some j => exact ⟨j, rfl, hlacking q hq j hturn⟩

/-! ## Reachable strategies -/

section Reachable

variable [Crates]

theorem Built.searchable (h : s.Built) (hrs : RsCorrect) : s.Searchable := by
  have hintact := h.intact hrs
  refine ⟨?_, (hintact.slots.trans hintact.planned.symm).le⟩
  obtain ⟨config, preamble, chunks, n, seed, mode, rfl⟩ := h.fresh
  exact EmitPlanner.new_heapRanked n seed mode

/-- Every operation keeps the strategy searchable. -/
theorem Searchable.applyOp (h : s.Searchable) (op : StrategyOp) : (s.applyOp op).Searchable := by
  have hstores := s.applyOp_stores op
  refine ⟨applyOp_heapRanked h.heap op, ?_⟩
  rw [hstores.length_eq, hstores.numShards_eq]
  exact h.slots

theorem Searchable.runOps (h : s.Searchable) (ops : List StrategyOp) : (s.runOps ops).Searchable := by
  induction ops generalizing s with
  | nil => exact h
  | cons op ops ih => exact ih (h.applyOp op)

/-- **When an empty poll is the end of the work.**  In every state of an origin or a relay, after any
operations: that a poll without a dispatch leaves nothing to send to any attached peer holds exactly
when the turns of the poll do not pass over a held shard. -/
theorem runOps_poll_complete_iff (hrs : RsCorrect) (hs : s.Built) (ops : List StrategyOp) :
    ((s.runOps ops).pollChunks.1 = [] →
      ∀ p ∈ (s.runOps ops).attachedPeers, ∀ idx, ¬ (s.runOps ops).Sendable p idx)
    ↔ ¬ ∃ turn, (s.runOps ops).PassesOver turn :=
  pollChunks_nil_iff ((hs.searchable hrs).runOps ops)

end Reachable

section OneShard

attribute [local instance] oneShard

/-- A relay that holds the shard its one peer's turn falls on. -/
theorem runOps_poll_complete_held :
    (¬ ∃ turn, (OneShard.relay.runOps [.take 0 [1], .attach 1]).PassesOver turn)
    ∧ ((OneShard.relay.runOps [.take 0 [1], .attach 1]).pollChunks.1 = [] →
      ∀ p ∈ (OneShard.relay.runOps [.take 0 [1], .attach 1]).attachedPeers, ∀ idx,
        ¬ (OneShard.relay.runOps [.take 0 [1], .attach 1]).Sendable p idx) := by
  have hbuilt : OneShard.relay.Built := .inr ⟨_, _, _, OneShard.newRelay_eq⟩
  have hnot : ¬ ∃ turn, (OneShard.relay.runOps [.take 0 [1], .attach 1]).PassesOver turn := by
    rintro ⟨turn, hpasses⟩
    have hfirst : turn 1 = some 0 := by
      have hfalls : (OneShard.relay.runOps [.take 0 [1], .attach 1]).planner.FallsOn
          ((OneShard.relay.runOps [.take 0 [1], .attach 1]).countAtTurn (fun _ => none) 1) 1 (some 0) := by
        decide +kernel
      exact EmitPlanner.FallsOn.unique (hpasses.turns 1 (by decide +kernel)) hfalls
    have hlacks := hpasses.turn_lacking 1 (by decide +kernel) 0 hfirst
    cases hlacks
  exact ⟨hnot, (runOps_poll_complete_iff OneShard.rsCorrect hbuilt _).mpr hnot⟩

/-- A relay that holds the other shard: the poll is empty, and the shard it holds could be sent. -/
theorem runOps_not_poll_complete :
    OneShard.relay.Built ∧ (OneShard.relay.runOps [.take 1 [1], .attach 1]).pollChunks.1 = []
    ∧ (1 : PeerId) ∈ (OneShard.relay.runOps [.take 1 [1], .attach 1]).attachedPeers
    ∧ (OneShard.relay.runOps [.take 1 [1], .attach 1]).Sendable 1 1 := by
  refine ⟨.inr ⟨_, _, _, OneShard.newRelay_eq⟩, by decide +kernel, by decide +kernel,
    by decide +kernel, fun b hb => ?_, by decide +kernel, fun cap hcap => ?_⟩
  · have hnone : ((OneShard.relay.runOps [.take 1 [1], .attach 1]).planner.peerState
        1).optimisticHavelist.isNone := by decide +kernel
    rw [Option.isNone_iff_eq_none.mp hnone] at hb
    cases hb
  · have hcount : (OneShard.relay.runOps [.take 1 [1], .attach 1]).planner.allocationCount 1 = 0 := by
      decide +kernel
    obtain rfl : 4 = cap := Option.some.inj hcap
    omega

end OneShard

end RsStrategy

end Ethp2p
