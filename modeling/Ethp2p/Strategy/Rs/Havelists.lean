/-
# Ethp2p.Strategy.Rs.Havelists — what the planner takes a peer to have.

A peer's havelist is written by three paths: its first routing update is stored AS IT IS, later ones are
merged into it and a merge of another size is dropped, and a confirmed send sets its bit, an index out of
range being dropped too.  The last two trust the first: only if that bitmap has a bit for every shard do
they remember anything (`Sized`).

Nothing checks the size of a first update.  As long as it is right (`FirstSized`), a shard that was
confirmed or announced is not dispatched to that peer again before it detaches
(`runOps_remembered_iff`); one bitmap of another size, and the havelist keeps that size and forgets.
-/
import Ethp2p.Strategy.BitmapSpec
import Ethp2p.Strategy.Rs.Store

namespace Ethp2p

open Std

/-! ## Setting a bit -/

namespace BitMap

theorem setIgnore_n (b : BitMap) (idx : Nat) : (b.setIgnore idx).n = b.n := by
  unfold setIgnore
  rcases Nat.lt_or_ge idx b.n with h | h
  · obtain ⟨b', hset, hn, -⟩ := set_ok h
    rw [hset, hn]
  · rw [set, if_pos h]

/-- Setting a bit sets it, and clears none. -/
theorem get_setIgnore (b : BitMap) (idx i : Nat) :
    (b.setIgnore idx).get i = (b.get i || decide (i = idx ∧ idx < b.n)) := by
  unfold setIgnore
  rcases Nat.lt_or_ge idx b.n with h | h
  · obtain ⟨b', hset, -, -⟩ := set_ok h
    rw [hset]
    simp [get_set hset, h]
  · rw [set, if_pos h]
    simp [Nat.not_lt.mpr h]

end BitMap

/-! ## What a peer is taken to have -/

namespace EmitPlanner

variable {pl pl' : EmitPlanner} {p q : PeerId} {idx i : Nat}

/-- The peer is taken to have the shard. -/
def Had (pl : EmitPlanner) (p : PeerId) (idx : Nat) : Prop :=
  ∃ b ∈ (pl.peerState p).optimisticHavelist, b.get idx

theorem Had.congr (h : pl.Had q i)
    (hhave : (pl'.peerState q).optimisticHavelist = (pl.peerState q).optimisticHavelist) :
    pl'.Had q i := by
  unfold Had
  rwa [hhave]

/-- No peer is allocated a shard that it is known to have. -/
theorem Eligible.not_had_entry {entry : EmitEntry} (h : pl.Eligible p entry) : ¬ pl.Had p entry.idx := by
  rintro ⟨b, hb, hget⟩
  rw [h.not_had b hb] at hget
  cases hget

/-- An allocation changes no havelist. -/
theorem Allocated.havelist_eq (h : Allocated p idx pl pl') (q : PeerId) :
    (pl'.peerState q).optimisticHavelist = (pl.peerState q).optimisticHavelist := by
  rw [h.peerState_eq]
  split
  case isTrue hq => rw [hq]
  case isFalse => rfl

/-- An allocation that is cancelled changes no havelist, either. -/
theorem Allocated.havelist_cancel (h : Allocated p idx pl pl') (q : PeerId) :
    ((pl'.cancelInFlight p idx).peerState q).optimisticHavelist
      = (pl.peerState q).optimisticHavelist := by
  rw [peerState_cancelInFlight]
  split
  case isTrue hq => rw [← h.havelist_eq q, hq]
  case isFalse => exact h.havelist_eq q

end EmitPlanner

namespace RsStrategy

variable {s s' : RsStrategy} {p q : PeerId} {idx i : Nat}

/-! ## The three paths -/

/-- The peer's bitmap after a routing update: the update itself if it is the first, otherwise the old one
with the update merged in, if they have the same size. -/
theorem havelist_routingUpdate (s : RsStrategy) (p : PeerId) (update : BitMap) :
    ∃ merged : BitMap,
      (∀ q, ((s.routingUpdate p update).2.planner.peerState q).optimisticHavelist
        = if p = q then some merged else (s.planner.peerState q).optimisticHavelist)
      ∧ (s.planner.peerHavelist p = none → merged = update)
      ∧ ∀ old ∈ s.planner.peerHavelist p, merged.n = old.n ∧ (∀ i, old.get i → merged.get i)
        ∧ (update.n = old.n → ∀ i, update.get i → merged.get i) := by
  refine ⟨_, fun q => (congrArg PeerState.optimisticHavelist
    (EmitPlanner.peerState_setPeerHavelist s.planner p q _)).trans (by split <;> rfl), ?_, ?_⟩
  · intro hnone
    rw [hnone]
  · intro old hold
    rw [Option.mem_def.mp hold]
    dsimp only
    by_cases hn : old.n = update.n
    · obtain ⟨b, hmerge, hb, -⟩ := BitMap.orMerge_ok hn
      have hget := BitMap.get_orMerge hmerge
      rw [hmerge]
      refine ⟨hb, fun i hi => ?_, fun _ i hi => ?_⟩ <;> rw [hget, hi]
      · rfl
      · exact Bool.or_true _
    · obtain ⟨e, herr⟩ : ∃ e, old.orMerge update = .error e := ⟨_, dif_pos hn⟩
      rw [herr]
      exact ⟨rfl, fun _ => id, fun heq => absurd heq.symm hn⟩

/-- What an outcome leaves in the havelists. -/
theorem havelist_chunkSent {k : DispatchHandle} {v : PeerId × Nat} (hk : s.inFlight[k]? = some v)
    (p q : PeerId) (ok : Bool) :
    ((s.chunkSent p k ok).planner.peerState q).optimisticHavelist
      = if p = q ∧ ok then some (((s.planner.peerState p).optimisticHavelist.getD
          (BitMap.withCapacity s.planner.numShards)).setIgnore v.2)
        else (s.planner.peerState q).optimisticHavelist := by
  rw [chunkSent_of_flying hk]
  cases ok with
  | true =>
    simp only [if_true, and_true, EmitPlanner.peerState_recordSent]
    split <;> rfl
  | false =>
    simp only [Bool.false_eq_true, if_false, and_false, EmitPlanner.peerState_refundAllocation,
      EmitPlanner.peerState_cancelInFlight]
    split
    case isTrue hq => rw [hq]
    case isFalse => rfl

/-- No outcome makes the planner forget what a peer has. -/
theorem had_chunkSent (h : s.planner.Had q i) (p : PeerId) (k : DispatchHandle) (ok : Bool) :
    (s.chunkSent p k ok).planner.Had q i := by
  cases hk : s.inFlight[k]? with
  | none => rwa [chunkSent_of_not_flying hk]
  | some v =>
    obtain ⟨b, hb, hget⟩ := h
    unfold EmitPlanner.Had
    rw [havelist_chunkSent hk]
    split
    case isTrue hq =>
      refine ⟨_, rfl, ?_⟩
      rw [hq.1, hb, Option.getD_some, BitMap.get_setIgnore, hget, Bool.true_or]
    case isFalse => exact ⟨b, hb, hget⟩

/-- A routing update does not make the planner forget what a peer has. -/
theorem had_routingUpdate (h : s.planner.Had q i) (p : PeerId) (update : BitMap) :
    (s.routingUpdate p update).2.planner.Had q i := by
  obtain ⟨merged, hhave, -, hold⟩ := s.havelist_routingUpdate p update
  obtain ⟨b, hb, hget⟩ := h
  unfold EmitPlanner.Had
  rw [hhave]
  split
  case isTrue hq =>
    subst hq
    exact ⟨merged, rfl, (hold b ((s.planner.peerHavelist_eq p).symm ▸ hb)).2.1 i hget⟩
  case isFalse => exact ⟨b, hb, hget⟩

/-- Nothing but its own departure makes the planner forget what a peer has. -/
theorem had_applyOp [Crates] (h : s.planner.Had p idx) (op : StrategyOp)
    (hstay : ∀ completed, op ≠ .detach p completed) : (s.applyOp op).planner.Had p idx := by
  cases op with
  | take i data =>
    obtain ⟨chunks, hchunks⟩ := s.takeChunk_eq i data
    rw [applyOp, hchunks]
    exact h
  | attach peer => exact h
  | detach peer completed =>
    refine h.congr ?_
    show ((s.planner.removePeer peer).peerState p).optimisticHavelist = _
    rw [(s.planner.removePeer_spec peer).2.2, if_neg]
    rintro rfl
    exact hstay completed rfl
  | routing peer update => exact had_routingUpdate h peer update
  | pollChunks =>
    refine pollPeers_induct (P := fun s => s.planner.Had p idx) _ ?_ h
    rintro q - s₁ s₂ hstep hhad
    cases hstep with
    | idle hal hsame => exact hhad.congr (by rw [hsame.peerState_eq])
    | cancelled hal hentry helig hall hchunk => exact hhad.congr (hall.havelist_cancel p)
    | dispatched hal hentry helig hall hchunk => exact hhad.congr (hall.havelist_eq p)
  | pollRouting force =>
    rw [applyOp, pollRouting_planner]
    exact h
  | sent peer handle ok => exact had_chunkSent h peer handle ok

/-- A peer is not sent what it is taken to have. -/
theorem not_had_of_mem_pollChunks {d : ChunkDispatch Nat} (hd : d ∈ s.pollChunks.1) :
    ¬ s.planner.Had d.peer d.chunkId := by
  refine pollPeers_forall (P := fun s₁ => ∀ p idx, s.planner.Had p idx → s₁.planner.Had p idx)
    (R := fun d => ¬ s.planner.Had d.peer d.chunkId) _ ?_ ?_ (fun _ _ => id) d hd
  · rintro q - s₁ s₂ hstep hgrows p idx hhad
    cases hstep with
    | idle hal hsame => exact (hgrows p idx hhad).congr (by rw [hsame.peerState_eq])
    | cancelled hal hentry helig hall hchunk => exact (hgrows p idx hhad).congr (hall.havelist_cancel p)
    | dispatched hal hentry helig hall hchunk => exact (hgrows p idx hhad).congr (hall.havelist_eq p)
  · exact fun p _ s₁ entry payload hgrows _ helig _ hhad => helig.not_had_entry (hgrows p entry.idx hhad)

/-! ## Sizes -/

/-- Every havelist has a bit for each of the planner's shards, and every flight is of such a shard. -/
structure Sized (s : RsStrategy) : Prop where
  heap : s.planner.HeapSound
  flying : ∀ (h : DispatchHandle) v, s.inFlight[h]? = some v → v.2 < s.planner.numShards
  havelists : ∀ p, ∀ b ∈ (s.planner.peerState p).optimisticHavelist, b.n = s.planner.numShards

/-- A new strategy remembers no havelists. -/
theorem Fresh.sized (h : s.Fresh) : s.Sized := by
  obtain ⟨config, preamble, chunks, n, seed, mode, rfl⟩ := h
  refine ⟨EmitPlanner.new_heapSound n seed mode, by simp [withParts], fun p b hb => ?_⟩
  have hstate : (EmitPlanner.new n seed mode).peerState p = default := by
    simp [EmitPlanner.peerState, EmitPlanner.new]
  have hb' : b ∈ ((EmitPlanner.new n seed mode).peerState p).optimisticHavelist := hb
  rw [hstate] at hb'
  cases hb'

namespace Sized

/-- Only the handle map and the planner matter. -/
theorem congr (h : s.Sized) (hfl : s'.inFlight = s.inFlight) (hpl : s'.planner = s.planner) :
    s'.Sized := by
  refine ⟨hpl ▸ h.heap, ?_, ?_⟩
  · rw [hfl, hpl]
    exact h.flying
  · rw [hpl]
    exact h.havelists

/-- A poll leaves the havelists alone. -/
theorem pollPeers (h : s.Sized) (peers : List PeerId) : (pollPeers peers s).2.Sized := by
  refine ⟨pollPeers_heapSound peers h.heap, ?_, ?_⟩ <;> rw [pollPeers_numShards]
  · intro k v hk
    rw [(pollPeers_spec peers s).inFlight_eq] at hk
    rcases get_addFlights hk with ⟨d, hd, -, rfl⟩ | ⟨-, hold⟩
    · exact pollPeers_forall (P := fun s' => s'.planner.HeapSound ∧ s'.planner.numShards = s.planner.numShards)
        (R := fun d => d.chunkId < s.planner.numShards) peers
        (fun p _ s₁ s₂ hstep hs₁ => ⟨hstep.heapSound hs₁.1, hstep.numShards_eq.trans hs₁.2⟩)
        (fun p _ s₁ entry payload hs₁ hentry _ _ => hs₁.2 ▸ hs₁.1.within entry hentry) ⟨h.heap, rfl⟩ d hd
    · exact h.flying k v hold
  · refine pollPeers_induct (P := fun s' =>
      ∀ p, ∀ b ∈ (s'.planner.peerState p).optimisticHavelist, b.n = s.planner.numShards) peers ?_ h.havelists
    rintro q - s₁ s₂ hstep hs₁ p b hb
    refine hs₁ p b ?_
    cases hstep with
    | @idle planner hal hsame =>
      have hb' : b ∈ (planner.peerState p).optimisticHavelist := hb
      rwa [hsame.peerState_eq] at hb'
    | cancelled hal hentry helig hall hchunk => exact hall.havelist_cancel p ▸ hb
    | dispatched hal hentry helig hall hchunk => exact hall.havelist_eq p ▸ hb

/-- A peer leaves, with its havelist. -/
theorem detachPeer (h : s.Sized) (p : PeerId) (completed : Bool) : (s.detachPeer p completed).Sized := by
  have hnum : (s.detachPeer p completed).planner.numShards = s.planner.numShards :=
    s.planner.removePeer_numShards p
  refine ⟨h.heap.removePeer p, fun k v hk => ?_, fun q b hb => ?_⟩ <;> rw [hnum]
  · exact h.flying k v (get_detachPeer.mp hk).1
  · refine h.havelists q b ?_
    have hb' : b ∈ ((s.planner.removePeer p).peerState q).optimisticHavelist := hb
    rw [(s.planner.removePeer_spec p).2.2] at hb'
    split at hb'
    · cases hb'
    · exact hb'

/-- A bitmap made for a first send has the size of the others. -/
theorem getD_n (h : s.Sized) (p : PeerId) : ((s.planner.peerState p).optimisticHavelist.getD
    (BitMap.withCapacity s.planner.numShards)).n = s.planner.numShards := by
  cases hold : (s.planner.peerState p).optimisticHavelist with
  | none => rfl
  | some b => exact h.havelists p b hold

/-- A result adds a shard of the plan. -/
theorem chunkSent (h : s.Sized) (p : PeerId) (k : DispatchHandle) (ok : Bool) :
    (s.chunkSent p k ok).Sized := by
  cases hk : s.inFlight[k]? with
  | none => rwa [chunkSent_of_not_flying hk]
  | some v =>
    refine ⟨chunkSent_heapSound h.heap p k ok, fun k' v' hk' => ?_, fun q b hb => ?_⟩ <;>
      rw [numShards_chunkSent]
    · exact h.flying k' v' ((get_landed (s.chunkSent_inFlight p k ok)).mp hk').2
    · rw [havelist_chunkSent hk] at hb
      split at hb
      · cases hb
        rw [BitMap.setIgnore_n]
        exact h.getD_n p
      · exact h.havelists q b hb

/-- An update that is merged, or is of the right size. -/
theorem routingUpdate (h : s.Sized) (p : PeerId) (update : BitMap)
    (hfirst : s.planner.peerHavelist p = none → update.n = s.planner.numShards) :
    (s.routingUpdate p update).2.Sized := by
  obtain ⟨merged, hhave, hnone, hsome⟩ := s.havelist_routingUpdate p update
  refine ⟨h.heap.congr rfl rfl rfl, h.flying, fun q b hb => ?_⟩
  show b.n = s.planner.numShards
  rw [hhave] at hb
  split at hb
  · cases hb
    cases hold : s.planner.peerHavelist p with
    | none => rw [hnone hold, hfirst hold]
    | some old =>
      rw [(hsome old hold).1]
      exact h.havelists p old (s.planner.peerHavelist_eq p ▸ hold)
  · exact h.havelists q b hb

/-- A shard whose flight succeeded is in its peer's havelist. -/
theorem had_of_sent (h : s.Sized) {k : DispatchHandle} (hk : s.inFlight[k]? = some (p, idx)) :
    (s.chunkSent p k true).planner.Had p idx := by
  unfold EmitPlanner.Had
  rw [havelist_chunkSent hk, if_pos ⟨rfl, rfl⟩]
  refine ⟨_, rfl, ?_⟩
  rw [BitMap.get_setIgnore, h.getD_n p]
  simp [h.flying k _ hk]

/-- A shard that an update of the right size announces is in its peer's havelist. -/
theorem had_of_announced (h : s.Sized) {update : BitMap} (hn : update.n = s.planner.numShards)
    (hget : update.get idx) : (s.routingUpdate p update).2.planner.Had p idx := by
  obtain ⟨merged, hhave, hnone, hsome⟩ := s.havelist_routingUpdate p update
  unfold EmitPlanner.Had
  rw [hhave, if_pos rfl]
  refine ⟨merged, rfl, ?_⟩
  cases hold : s.planner.peerHavelist p with
  | none => rwa [hnone hold]
  | some old =>
    have hsize := h.havelists p old (s.planner.peerHavelist_eq p ▸ hold)
    exact (hsome old hold).2.2 (hn.trans hsize.symm) idx hget

end Sized

/-! ## Runs -/

/-- A peer's first routing update has a bit for each shard. -/
def FirstSized (s : RsStrategy) : StrategyOp → Prop
  | .routing peer update => s.planner.peerHavelist peer = none → update.n = s.totalShards
  | _ => True

instance (s : RsStrategy) (op : StrategyOp) : Decidable (s.FirstSized op) :=
  match op with
  | .routing peer update =>
    inferInstanceAs (Decidable (s.planner.peerHavelist peer = none → update.n = s.totalShards))
  | .take .. | .attach .. | .detach .. | .pollChunks | .pollRouting .. | .sent .. => .isTrue trivial

/-- Every stored havelist has a bit for each shard. -/
def HavelistsFit (s : RsStrategy) : Prop :=
  ∀ p, ∀ b ∈ s.planner.peerHavelist p, b.n = s.totalShards

/-- The operation tells the strategy that the peer has the shard: it confirms a dispatch of the shard to
the peer, or it is an announcement of the peer, of the right size. -/
def Tells (s : RsStrategy) (p : PeerId) (idx : Nat) : StrategyOp → Prop
  | .sent peer handle ok => peer = p ∧ ok ∧ s.inFlight[handle]? = some (p, idx)
  | .routing peer update => peer = p ∧ update.n = s.totalShards ∧ update.get idx
  | _ => False

section Run

variable [Crates]

/-- Some operation of the run told the strategy that the peer has the shard, and the peer did not detach
after it. -/
def Told (s : RsStrategy) (ops : List StrategyOp) (p : PeerId) (idx : Nat) : Prop :=
  ∃ before op after, ops = before ++ op :: after ∧ (s.runOps before).Tells p idx op
    ∧ ∀ completed, .detach p completed ∉ after

/-- One operation keeps the sizes, unless it is a first update of another size. -/
theorem Sized.applyOp (h : s.Sized) (htotal : s.planner.numShards = s.totalShards) {op : StrategyOp}
    (hfirst : s.FirstSized op) : (s.applyOp op).Sized := by
  cases op with
  | take idx data =>
    obtain ⟨chunks, hchunks⟩ := s.takeChunk_eq idx data
    rw [RsStrategy.applyOp, hchunks]
    exact h.congr rfl rfl
  | attach peer => exact h.congr rfl rfl
  | detach peer completed => exact h.detachPeer peer completed
  | routing peer update => exact h.routingUpdate peer update fun hnone => (hfirst hnone).trans htotal.symm
  | pollChunks => exact h.pollPeers _
  | pollRouting force =>
    rw [RsStrategy.applyOp]
    rcases s.pollRouting_cases force with hr | hr <;> rw [hr]
    · exact h
    · exact h.congr rfl rfl
  | sent peer handle ok => exact h.chunkSent peer handle ok

omit [Crates] in
/-- The havelists that are remembered have a bit for each shard. -/
theorem Sized.havelistsFit (h : s.Sized) (htotal : s.planner.numShards = s.totalShards) :
    s.HavelistsFit := fun p b hb =>
  (h.havelists p b (s.planner.peerHavelist_eq p ▸ hb)).trans htotal

/-- What the operation tells is remembered after it. -/
theorem Sized.had_of_tells (h : s.Sized) (htotal : s.planner.numShards = s.totalShards) {op : StrategyOp}
    (htells : s.Tells p idx op) : (s.applyOp op).planner.Had p idx := by
  cases op with
  | sent peer handle ok =>
    obtain ⟨rfl, rfl, hk⟩ := htells
    exact h.had_of_sent hk
  | routing peer update =>
    obtain ⟨rfl, hn, hget⟩ := htells
    exact h.had_of_announced (hn.trans htotal.symm) hget
  | _ => exact htells.elim

/-- What a peer is taken to have it is taken to have until it detaches. -/
theorem had_runOps (h : s.planner.Had p idx) (ops : List StrategyOp)
    (hstay : ∀ completed, .detach p completed ∉ ops) : (s.runOps ops).planner.Had p idx := by
  induction ops generalizing s with
  | nil => exact h
  | cons op ops ih =>
    refine ih (had_applyOp h _ fun completed heq => ?_) fun completed hmem =>
      hstay completed (List.mem_cons_of_mem op hmem)
    exact hstay completed (heq ▸ List.mem_cons_self)

theorem EachOp.prefix {P : RsStrategy → StrategyOp → Prop} {before after : List StrategyOp}
    (h : s.EachOp P (before ++ after)) : s.EachOp P before := by
  induction before generalizing s with
  | nil => trivial
  | cons op before ih => exact ⟨h.1, ih h.2⟩

/-- Sizes are kept by a run whose first updates have the right size. -/
theorem Built.runOps_sized (hrs : RsCorrect) (hs : s.Built) {ops : List StrategyOp}
    (hfirst : s.EachOp FirstSized ops) :
    (s.runOps ops).Sized ∧ (s.runOps ops).planner.numShards = (s.runOps ops).totalShards := by
  refine hfirst.run (Q := fun s => s.Sized ∧ s.planner.numShards = s.totalShards) ?_
    ⟨hs.fresh.sized, (hs.intact hrs).planned⟩
  intro s op hop h
  have hstores := s.applyOp_stores op
  refine ⟨h.1.applyOp h.2 hop, ?_⟩
  rw [hstores.numShards_eq, h.2, totalShards, totalShards, hstores.preamble_eq]

/-- **A shard the peer has is not dispatched to it**, and every havelist fits, in every state of a run,
exactly if every peer's first routing update has a bit for each shard. -/
theorem runOps_remembered_iff (hrs : RsCorrect) (hs : s.Built) (ops : List StrategyOp) :
    (∀ before after, ops = before ++ after →
      (s.runOps before).HavelistsFit
        ∧ ∀ p idx, s.Told before p idx →
          ∀ d ∈ (s.runOps before).pollChunks.1, ¬ (d.peer = p ∧ d.chunkId = idx))
    ↔ s.EachOp FirstSized ops := by
  constructor
  · intro hall
    have hfit : ∀ before after, ops = before ++ after → (s.runOps before).HavelistsFit :=
      fun before after h => (hall before after h).1
    clear hall
    clear hs
    induction ops generalizing s with
    | nil => trivial
    | cons op ops ih =>
      refine ⟨?_, ih fun before after h => hfit (op :: before) after (congrArg _ h)⟩
      cases op with
      | routing peer update =>
        intro hnone
        -- the update was stored as it is, so its size is that of a havelist
        obtain ⟨merged, hhave, hmerged, -⟩ := s.havelist_routingUpdate peer update
        refine hfit [.routing peer update] ops rfl peer update ?_
        show update ∈ (s.routingUpdate peer update).2.planner.peerHavelist peer
        rw [EmitPlanner.peerHavelist_eq, hhave, if_pos rfl, hmerged hnone]
        exact rfl
      | _ => trivial
  · rintro hfirst before after rfl
    obtain ⟨hsized, htotal⟩ := hs.runOps_sized hrs hfirst.prefix
    refine ⟨hsized.havelistsFit htotal, ?_⟩
    rintro p idx ⟨earlier, op, later, rfl, htells, hstay⟩ d hd ⟨rfl, rfl⟩
    obtain ⟨hsized', htotal'⟩ := hs.runOps_sized hrs hfirst.prefix.prefix
    refine not_had_of_mem_pollChunks hd ?_
    rw [runOps_append]
    exact had_runOps (hsized'.had_of_tells htotal' htells) later hstay

end Run

section OneShard

attribute [local instance] oneShard

/-- A peer of an origin announces nothing, in a bitmap with a bit for each shard, and is sent both. -/
def announcingOps : List StrategyOp :=
  [.attach 1, .routing 1 (.withCapacity 2), .pollChunks, .sent 1 0 true, .pollChunks, .sent 1 1 true]

/-- A peer announces what it has before it is sent anything. -/
theorem runOps_remembered_announcing :
    OneShard.origin.EachOp FirstSized announcingOps
    ∧ (OneShard.origin.runOps announcingOps).HavelistsFit
    ∧ (OneShard.origin.runOps announcingOps).pollChunks.1 = [] := by
  have hfirst : OneShard.origin.EachOp FirstSized announcingOps := by decide +kernel
  have hbuilt : OneShard.origin.Built := .inl ⟨_, _, _, OneShard.newOrigin_eq⟩
  have hall := (runOps_remembered_iff OneShard.rsCorrect hbuilt announcingOps).mpr hfirst
  exact ⟨hfirst, (hall announcingOps [] rfl).1, by decide +kernel⟩

/-- The same, but the bitmap has no bits. -/
def sizelessOps : List StrategyOp :=
  [.attach 1, .routing 1 (.withCapacity 0), .pollChunks, .sent 1 0 true, .pollChunks, .sent 1 1 true]

/-- The peer confirmed shard 0, and is sent it again. -/
theorem runOps_forgotten_sizeless :
    OneShard.origin.Built
    ∧ ¬ (OneShard.origin.runOps sizelessOps).HavelistsFit
    ∧ OneShard.origin.Told sizelessOps 1 0
    ∧ ∃ d ∈ (OneShard.origin.runOps sizelessOps).pollChunks.1, d.peer = 1 ∧ d.chunkId = 0 := by
  refine ⟨.inl ⟨_, _, _, OneShard.newOrigin_eq⟩, fun hfit => ?_, ?_, by decide +kernel⟩
  · have hstored : (OneShard.origin.runOps sizelessOps).planner.peerHavelist 1
        = some (.withCapacity 0) := by decide +kernel
    have hn := hfit 1 _ hstored
    have htotal : (OneShard.origin.runOps sizelessOps).totalShards = 2 := by decide +kernel
    rw [htotal] at hn
    cases hn
  · refine ⟨sizelessOps.take 3, .sent 1 0 true, sizelessOps.drop 4, rfl, ⟨rfl, rfl, ?_⟩, ?_⟩
    · decide +kernel
    · simp [sizelessOps]

end OneShard

end RsStrategy

end Ethp2p
