/-
# Ethp2p.Strategy.Rs.Routing — the routing bitmaps of a session.

`poll_routing` sends the bitmap of the held shards again when it is not the one that was sent last, and it
remembers of that one only the NUMBER of its shards.  A count is enough because the held set only grows: the
sets that were sent are a chain, and two of them with the same number of shards are the same.  The threshold
is a percentage rounded down, and `n * 100 / total ≥ threshold` says exactly
`threshold * total ≤ 100 * n`.

`Routed` relates a strategy to what it has sent; each operation keeps it, and `runOps_routing_chain` reads
the results off.  Forced polls are not part of it.
-/
import Ethp2p.Strategy.Rs.Havelists

namespace Ethp2p

/-! ## Sets and bitmaps -/

namespace BitMap

/-- The shards of a bitmap. -/
def members (b : BitMap) : Finset Nat := (Finset.range b.n).filter fun i => b.get i

theorem mem_members {b : BitMap} {i : Nat} : i ∈ b.members ↔ b.get i = true := by
  rw [members, Finset.mem_filter, Finset.mem_range, and_iff_right_of_imp lt_of_get]

/-- The bits of a clean map, counted, are its members. -/
theorem Clean.countOnes_eq_card {b : BitMap} (h : b.Clean) : b.countOnes = b.members.card := by
  rw [h.countOnes_eq, members, ← List.toFinset_range, List.countP_eq_length_filter,
    ← List.toFinset_filter, List.toFinset_card_of_nodup (List.nodup_range.filter _)]

theorem Made.setIgnore {n : Nat} {b : BitMap} (h : Made n b) (idx : Nat) : Made n (b.setIgnore idx) := by
  unfold BitMap.setIgnore
  split
  case h_1 b' hset => exact h.set hset
  case h_2 => exact h

end BitMap

namespace RsStrategy

variable {s s' : RsStrategy}

/-- The shards that are held. -/
def held (s : RsStrategy) : Finset Nat := (Finset.range s.chunks.length).filter fun i => (s.chunkAt i).isSome

theorem mem_held {i : Nat} : i ∈ s.held ↔ (s.chunkAt i).isSome = true := by
  rw [held, Finset.mem_filter, Finset.mem_range, and_iff_right_of_imp]
  intro hsome
  by_contra hle
  rw [chunkAt, List.getD_eq_getElem?_getD, List.getElem?_eq_none (Nat.not_lt.mp hle)] at hsome
  cases hsome

/-- Setting the bits of the filled slots, from the `k`-th on. -/
theorem foldl_setIgnore {n : Nat} (slots : List (Option Bytes)) (k : Nat) {b : BitMap} (h : b.Made n) :
    BitMap.Made n ((slots.zipIdx k).foldl (fun b (slot, i) => if slot.isSome then b.setIgnore i else b) b)
    ∧ ∀ i, ((slots.zipIdx k).foldl (fun b (slot, i) => if slot.isSome then b.setIgnore i else b) b).get i
        = true ↔ b.get i = true ∨ i < n ∧ k ≤ i ∧ (slots.getD (i - k) none).isSome = true := by
  induction slots generalizing k b with
  | nil => exact ⟨h, by simp⟩
  | cons slot slots ih =>
    rw [List.zipIdx_cons, List.foldl_cons]
    dsimp only
    have hstep : BitMap.Made n (if slot.isSome then b.setIgnore k else b) := by
      split
      · exact h.setIgnore k
      · exact h
    obtain ⟨hmade, hget⟩ := ih (k + 1) hstep
    refine ⟨hmade, fun i => ?_⟩
    rw [hget i]
    have hhere : (if slot.isSome then b.setIgnore k else b).get i = true
        ↔ b.get i = true ∨ slot.isSome = true ∧ i = k ∧ k < n := by
      split
      case isTrue hsome => simp [BitMap.get_setIgnore, hsome, h.clean.1]
      case isFalse hnone => simp [hnone]
    rw [hhere, or_assoc]
    refine or_congr_right ?_
    -- an index before the slot, of the slot, or behind it
    rcases Nat.lt_trichotomy i k with hlt | rfl | hgt
    · simp only [show ¬ i = k by omega, show ¬ k ≤ i by omega, show ¬ k + 1 ≤ i by omega, false_and,
        and_false, or_self]
    · simp only [Nat.sub_self, List.getD_cons_zero, show ¬ i + 1 ≤ i by omega, false_and, and_false, or_false,
        true_and, le_refl]
      exact and_comm
    · have hsub : i - k = i - (k + 1) + 1 := by omega
      simp only [hsub, List.getD_cons_succ, show ¬ i = k by omega, show k ≤ i by omega,
        show k + 1 ≤ i by omega, false_and, and_false, false_or, true_and]

/-- **The local havelist is the held set.** -/
theorem localHavelist_spec (hslots : s.chunks.length = s.totalShards) :
    s.localHavelist.n = s.totalShards ∧ s.localHavelist.members = s.held
    ∧ s.localHavelist.countOnes = s.held.card := by
  obtain ⟨hmade, hget⟩ := foldl_setIgnore s.chunks 0 (@BitMap.Made.withCapacity s.totalShards)
  obtain ⟨hn, hclean⟩ := hmade.clean
  have hmembers : s.localHavelist.members = s.held := by
    ext i
    rw [BitMap.mem_members, held, Finset.mem_filter, Finset.mem_range, hslots]
    refine (hget i).trans ?_
    rw [BitMap.get_withCapacity, Nat.sub_zero]
    simp [chunkAt]
  exact ⟨hn, hmembers, hmembers ▸ hclean.countOnes_eq_card⟩

/-! ## What has been sent -/

/-- The bitmaps that the routing polls of a run return, in order. -/
def routed [Crates] (s : RsStrategy) : List StrategyOp → List BitMap
  | [] => []
  | .pollRouting force :: ops =>
    (s.pollRouting force).1.toList ++ (s.applyOp (.pollRouting force)).routed ops
  | op :: ops => (s.applyOp op).routed ops

/-- The held set at the last routing poll of a run, and `polled` if there was none. -/
def lastPolled [Crates] (s : RsStrategy) (polled : Finset Nat) : List StrategyOp → Finset Nat
  | [] => polled
  | .pollRouting force :: ops => (s.applyOp (.pollRouting force)).lastPolled s.held ops
  | op :: ops => (s.applyOp op).lastPolled polled ops

/-- What was sent is remembered by its number, is a chain below the last one, and the last one was held at the
last poll. -/
structure Routed (s : RsStrategy) (sent : List BitMap) (last polled : Finset Nat) : Prop where
  slots : s.chunks.length = s.totalShards
  count : s.lastRoutingEmittedCount = last.card
  below : ∀ b ∈ sent, b.members ⊆ last
  last_sub : last ⊆ polled
  polled_sub : polled ⊆ s.held

/-- The percentage is rounded down, and that changes nothing. -/
theorem bitmapThresholdReached_iff (s : RsStrategy) {n : Nat} (hn : n ≤ s.totalShards) :
    s.bitmapThresholdReached n = true ↔ s.config.bitmapThreshold * s.totalShards ≤ 100 * n := by
  unfold bitmapThresholdReached
  split
  case isTrue hzero =>
    rw [hzero] at hn
    simp [hzero, Nat.le_zero.mp hn]
  case isFalse hpos =>
    rw [decide_eq_true_iff, ge_iff_le, Nat.le_div_iff_mul_le (Nat.pos_of_ne_zero hpos), Nat.mul_comm n]

/-- No more shards are held than there are. -/
theorem card_held_le (hslots : s.chunks.length = s.totalShards) : s.held.card ≤ s.totalShards := by
  rw [← hslots]
  exact (Finset.card_filter_le _ _).trans_eq (Finset.card_range _)

/-- **When a relay says what it holds**: bitmaps are on, the threshold is reached, and the count is not the
one it said last. -/
theorem pollRouting_unforced (s : RsStrategy) :
    (s.pollRouting false).1 = if s.config.disableBitmap = false
        ∧ s.bitmapThresholdReached s.localHavelist.countOnes = true
        ∧ s.localHavelist.countOnes ≠ s.lastRoutingEmittedCount then some s.localHavelist else none := by
  unfold pollRouting
  cases s.config.disableBitmap with
  | true => simp
  | false =>
    simp only [Bool.false_and, Bool.false_eq_true, if_false, Bool.false_or, Bool.and_eq_true,
      decide_eq_true_eq, true_and]
    split <;> rfl

/-- **What an unforced poll returns.** -/
theorem Routed.pollRouting_eq_some_iff {sent : List BitMap} {last polled : Finset Nat}
    (h : s.Routed sent last polled) (b : BitMap) :
    (s.pollRouting false).1 = some b ↔ b = s.localHavelist ∧ s.config.disableBitmap = false
      ∧ s.config.bitmapThreshold * s.totalShards ≤ 100 * s.held.card ∧ last ≠ s.held := by
  have hcount := (localHavelist_spec h.slots).2.2
  have hsub := h.last_sub.trans h.polled_sub
  have hchanged : s.held.card ≠ last.card ↔ last ≠ s.held := by
    constructor
    · rintro hcard rfl
      exact hcard rfl
    · intro hne hcard
      exact hne (Finset.eq_of_subset_of_card_le hsub hcard.le)
  have hreached := s.bitmapThresholdReached_iff (card_held_le h.slots)
  rw [← hreached, ← hchanged, ← h.count, pollRouting_unforced, hcount]
  constructor
  · intro hsome
    split at hsome
    case isTrue hsend => exact ⟨(Option.some.inj hsome).symm, hsend⟩
    case isFalse => cases hsome
  · rintro ⟨rfl, hsend⟩
    exact if_pos hsend

/-! ## Runs -/

section

variable [Crates] {sent : List BitMap} {last polled : Finset Nat}

/-- Nothing that is held is lost. -/
theorem Stores.held_subset (h : Stores s s') : s.held ⊆ s'.held := by
  intro i hi
  rw [mem_held] at hi ⊢
  obtain ⟨d, hd⟩ := Option.isSome_iff_exists.mp hi
  rw [h.kept i d hd]
  rfl

/-- An operation that does not poll for routing remembers what was sent. -/
theorem applyOp_lastRouting (s : RsStrategy) {op : StrategyOp} (hop : ∀ force, op ≠ .pollRouting force) :
    (s.applyOp op).lastRoutingEmittedCount = s.lastRoutingEmittedCount := by
  cases op with
  | take idx data =>
    obtain ⟨chunks, hchunks⟩ := s.takeChunk_eq idx data
    rw [applyOp, hchunks]
  | attach peer | detach peer completed | routing peer update => rfl
  | pollChunks => exact s.pollChunks_spec.lastRouting_eq
  | pollRouting force => exact absurd rfl (hop force)
  | sent peer handle ok =>
    rw [applyOp, chunkSent]
    split
    · rfl
    · cases ok <;> rfl

theorem applyOp_config (s : RsStrategy) (op : StrategyOp) : (s.applyOp op).config = s.config := by
  cases op with
  | take idx data =>
    obtain ⟨chunks, hchunks⟩ := s.takeChunk_eq idx data
    rw [applyOp, hchunks]
  | attach peer | detach peer completed | routing peer update => rfl
  | pollChunks => exact s.pollChunks_spec.sameStore.config_eq
  | pollRouting force =>
    rw [applyOp]
    rcases s.pollRouting_cases force with hr | hr <;> rw [hr]
  | sent peer handle ok => exact (s.chunkSent_sameStore peer handle ok).config_eq

/-- No operation changes the configuration. -/
theorem runOps_config (s : RsStrategy) (ops : List StrategyOp) : (s.runOps ops).config = s.config := by
  induction ops generalizing s with
  | nil => rfl
  | cons op ops ih => exact (ih (s.applyOp op)).trans (s.applyOp_config op)

/-- An operation that is no routing poll. -/
theorem Routed.applyOp (h : s.Routed sent last polled) {op : StrategyOp}
    (hop : ∀ force, op ≠ .pollRouting force) : (s.applyOp op).Routed sent last polled := by
  have hstores := s.applyOp_stores op
  refine ⟨?_, (s.applyOp_lastRouting hop).trans h.count, h.below, h.last_sub,
    h.polled_sub.trans hstores.held_subset⟩
  rw [hstores.length_eq, h.slots]
  exact congrArg totalOf hstores.preamble_eq.symm

/-- **An unforced routing poll** sends the held set or nothing. -/
theorem Routed.pollRouting (h : s.Routed sent last polled) : ∃ last',
    (s.applyOp (.pollRouting false)).Routed (sent ++ (s.pollRouting false).1.toList) last' s.held := by
  have hlast := h.last_sub.trans h.polled_sub
  rcases s.pollRouting_cases false with hr | hr
  · rw [RsStrategy.applyOp, hr]
    exact ⟨last, h.slots, h.count, by simpa using h.below, hlast, subset_rfl⟩
  · obtain ⟨-, hmembers, hcount⟩ := localHavelist_spec h.slots
    rw [RsStrategy.applyOp, hr]
    refine ⟨s.held, h.slots, hcount, fun b hb => ?_, subset_rfl, subset_rfl⟩
    rcases List.mem_append.mp hb with hb | hb
    · exact (h.below b hb).trans hlast
    · obtain rfl : b = s.localHavelist := by simpa using hb
      exact hmembers.subset

/-- **The run lemma.** -/
theorem Routed.runOps (h : s.Routed sent last polled) {ops : List StrategyOp}
    (hops : .pollRouting true ∉ ops) : ∃ last',
    (s.runOps ops).Routed (sent ++ s.routed ops) last' (s.lastPolled polled ops) := by
  induction ops generalizing s sent last polled with
  | nil =>
    rw [routed, List.append_nil]
    exact ⟨last, h⟩
  | cons op ops ih =>
    rw [List.mem_cons, not_or] at hops
    obtain ⟨hop, hops⟩ := hops
    cases op with
    | pollRouting force =>
      obtain rfl : force = false := by
        cases force with
        | true => exact absurd rfl hop
        | false => rfl
      obtain ⟨last', hpolled⟩ := h.pollRouting
      obtain ⟨last'', hrun⟩ := ih hpolled hops
      rw [List.append_assoc] at hrun
      exact ⟨last'', hrun⟩
    | take | attach | detach | routing | pollChunks | sent =>
      exact ih (h.applyOp (by rintro force ⟨⟩)) hops

/-- What a longer run said. -/
theorem routed_append (s : RsStrategy) (ops ops' : List StrategyOp) :
    s.routed (ops ++ ops') = s.routed ops ++ (s.runOps ops).routed ops' := by
  induction ops generalizing s with
  | nil => rfl
  | cons op ops ih =>
    cases op with
    | pollRouting force =>
      rw [List.cons_append, routed, routed, ih, ← List.append_assoc]
      rfl
    | take | attach | detach | routing | pollChunks | sent => exact ih _

/-- A strategy that was just built has said nothing. -/
theorem Built.routed (hs : s.Built) (hrs : RsCorrect) : s.Routed [] ∅ ∅ := by
  refine ⟨(hs.intact hrs).slots, ?_, by simp, subset_rfl, Finset.empty_subset _⟩
  obtain ⟨config, preamble, chunks, n, seed, mode, rfl⟩ := hs.fresh
  rfl

/-- **The routing bitmaps of a run** without forced polls.  A bitmap that is returned is the held set, is
strictly larger than every bitmap before it, and reaches the threshold.  A poll returns one if the held set,
which reaches the threshold, has grown since the last poll, or since the start, where it counts as empty.
There is at most one as long as the held set does not grow, and none at all when bitmaps are disabled. -/
theorem runOps_routing_chain (hrs : RsCorrect) (hs : s.Built) {ops : List StrategyOp}
    (hops : .pollRouting true ∉ ops) :
    let t := s.runOps ops
    (∀ b, (t.pollRouting false).1 = some b →
      b.n = t.totalShards ∧ b.members = t.held ∧ (∀ b' ∈ s.routed ops, b'.members ⊂ b.members)
      ∧ s.config.bitmapThreshold * t.totalShards ≤ 100 * b.members.card)
    ∧ (s.lastPolled ∅ ops ≠ t.held → s.config.bitmapThreshold * t.totalShards ≤ 100 * t.held.card →
      s.config.disableBitmap = false → ∃ b, (t.pollRouting false).1 = some b)
    ∧ (∀ before after, ops = before ++ .pollRouting false :: after → (s.runOps before).held = t.held →
      (∃ b, ((s.runOps before).pollRouting false).1 = some b) → (t.pollRouting false).1 = none)
    ∧ (s.config.disableBitmap = true → (t.pollRouting false).1 = none) := by
  intro t
  obtain ⟨last, hrouted⟩ := (hs.routed hrs).runOps hops
  rw [List.nil_append] at hrouted
  have hiff := fun b => hrouted.pollRouting_eq_some_iff b
  have hconfig : t.config = s.config := s.runOps_config ops
  rw [hconfig] at hiff
  obtain ⟨hn, hmembers, -⟩ := localHavelist_spec hrouted.slots
  have hsub := hrouted.last_sub.trans hrouted.polled_sub
  -- a bitmap that was sent before is below the last one, and the last one is not the held set
  have hlarger : ∀ b, (t.pollRouting false).1 = some b → ∀ b' ∈ s.routed ops, b'.members ⊂ t.held :=
    fun b hb b' hb' => (hrouted.below b' hb').trans_ssubset (hsub.ssubset_of_ne ((hiff b).mp hb).2.2.2)
  refine ⟨fun b hb => ?_, fun hgrown hreached henabled => ?_, fun before after hsplit hsame hsent => ?_,
    fun hdisabled => ?_⟩
  · obtain ⟨rfl, -, hreached, -⟩ := (hiff b).mp hb
    rw [hmembers]
    exact ⟨hn, rfl, hlarger _ hb, hreached⟩
  · refine ⟨t.localHavelist, (hiff _).mpr ⟨rfl, henabled, hreached, ?_⟩⟩
    rintro rfl
    exact hgrown (hrouted.polled_sub.antisymm hrouted.last_sub)
  · obtain ⟨b₀, hb₀⟩ := hsent
    rw [Option.eq_none_iff_forall_not_mem]
    intro b hb
    have hmem : b₀ ∈ s.routed ops := by
      rw [hsplit, routed_append, RsStrategy.routed, hb₀]
      exact List.mem_append_right _ (List.mem_append_left _ (List.mem_singleton.mpr rfl))
    have hbefore : .pollRouting true ∉ before := fun hforced => hops (hsplit ▸ List.mem_append_left _ hforced)
    obtain ⟨last₀, hrouted₀⟩ := (hs.routed hrs).runOps hbefore
    obtain ⟨rfl, -⟩ := (hrouted₀.pollRouting_eq_some_iff b₀).mp hb₀
    have hlt := hlarger b hb _ hmem
    rw [(localHavelist_spec hrouted₀.slots).2.1, hsame] at hlt
    exact hlt.ne rfl
  · rw [Option.eq_none_iff_forall_not_mem]
    intro b hb
    have henabled := ((hiff b).mp hb).2.1
    rw [hdisabled] at henabled
    cases henabled

end

section OneShard

attribute [local instance] oneShard

/-- A relay of two shards, threshold 50: it announces one shard, and then both. -/
theorem runOps_routing_chain_relay :
    let ops : List StrategyOp := [.take 0 [1], .pollRouting false, .pollRouting false, .take 1 [1]]
    (OneShard.relay.routed ops).map (·.members) = [{0}]
    ∧ ∃ b, ((OneShard.relay.runOps ops).pollRouting false).1 = some b := by
  intro ops
  have hchain := runOps_routing_chain OneShard.rsCorrect (.inr ⟨_, _, _, OneShard.newRelay_eq⟩)
    (show StrategyOp.pollRouting true ∉ ops by simp [ops])
  refine ⟨by decide +kernel, hchain.2.1 ?_ ?_ rfl⟩
  · decide +kernel
  · decide +kernel

end OneShard

end RsStrategy

end Ethp2p
