/-
# Ethp2p.Strategy.Rs.Books — the handle map and the planner's books.

What is in flight is written down twice: under its handle in the strategy, and under its peer in the
planner.  `Planned` says that the first is found in the second, each peer and shard under one handle;
`Matched` says that the two are the same.  Four operations write to both, in separate steps.

`Planned` survives everything.  `Matched` needs that a new handle is free: handles are counted in 64 bits,
and a run of fewer than `2^64` dispatches never meets an old one again (`runOps_booked`).  Callbacks name
the peer of their dispatch (`OwnPeer`), which the source asserts in debug builds.
-/
import Ethp2p.Strategy.Rs.OneShard
import Ethp2p.Strategy.Rs.Runs

namespace Ethp2p

open Std

namespace RsStrategy

variable {s s' : RsStrategy} {p q : PeerId} {idx i : Nat}

/-! ## Outcomes -/

/-- A result of a flight is recorded or refunded under the shard that flew. -/
theorem chunkSent_of_flying {k : DispatchHandle} {v : PeerId × Nat} (hk : s.inFlight[k]? = some v)
    (p : PeerId) (ok : Bool) :
    (s.chunkSent p k ok).planner = if ok then s.planner.recordSent p v.2
      else (s.planner.cancelInFlight p v.2).refundAllocation v.2 := by
  rw [chunkSent, hk]
  cases ok <;> rfl

/-- A result without a flight changes nothing. -/
theorem chunkSent_of_not_flying {k : DispatchHandle} (hk : s.inFlight[k]? = none) (p : PeerId)
    (ok : Bool) : s.chunkSent p k ok = s := by
  rw [chunkSent, hk]

/-- A result takes the shard out of the peer's flights. -/
theorem inFlightTo_chunkSent {k : DispatchHandle} {v : PeerId × Nat} (hk : s.inFlight[k]? = some v)
    (p q : PeerId) (ok : Bool) : (s.chunkSent p k ok).planner.inFlightTo q
      = if p = q then (s.planner.inFlightTo p).erase v.2 else s.planner.inFlightTo q := by
  rw [chunkSent_of_flying hk]
  cases ok with
  | true => exact (s.planner.recordSent_spec p v.2).2.2 q
  | false =>
    refine (congrArg PeerState.inFlight (EmitPlanner.peerState_refundAllocation _ q v.2)).trans ?_
    exact s.planner.inFlightTo_cancelInFlight p q v.2

theorem numShards_chunkSent (s : RsStrategy) (p : PeerId) (k : DispatchHandle) (ok : Bool) :
    (s.chunkSent p k ok).planner.numShards = s.planner.numShards := by
  cases hk : s.inFlight[k]? with
  | none => rw [chunkSent_of_not_flying hk]
  | some v =>
    rw [chunkSent_of_flying hk]
    cases ok
    · exact EmitPlanner.refundAllocation_numShards _ _
    · rfl

/-! ## Reading the handle map -/

/-- A dispatch adds the flight of its handle. -/
theorem get_dispatched (s : RsStrategy) (planner : EmitPlanner) (p : PeerId) (idx : Nat)
    (k : DispatchHandle) : (s.dispatched planner p idx).inFlight[k]?
      = if s.nextHandle = k then some (p, idx) else s.inFlight[k]? :=
  BTreeMap.get_insert s.inFlight s.nextHandle k (p, idx)

/-- A detach removes the flights to the peer. -/
theorem get_detachPeer {completed : Bool} {k : DispatchHandle} {v : PeerId × Nat} :
    (s.detachPeer p completed).inFlight[k]? = some v ↔ s.inFlight[k]? = some v ∧ v.1 ≠ p := by
  show (s.inFlight.filter fun _ v => v.1 ≠ p)[k]? = some v ↔ _
  rw [BTreeMap.get_filter, Option.filter_eq_some_iff]
  simp

/-- A flight that ended is the only one that is gone. -/
theorem get_landed {k k' : DispatchHandle} {v : PeerId × Nat}
    (hfl : s'.inFlight = s.inFlight.erase k) :
    s'.inFlight[k']? = some v ↔ k ≠ k' ∧ s.inFlight[k']? = some v := by
  rw [hfl, BTreeMap.get_erase]
  split <;> simp_all

/-- A detach empties the peer's flights on the planner's side, too. -/
theorem inFlightTo_detachPeer (s : RsStrategy) (p q : PeerId) (completed : Bool) :
    (s.detachPeer p completed).planner.inFlightTo q
      = if p = q then ∅ else s.planner.inFlightTo q := by
  refine (congrArg PeerState.inFlight ((s.planner.removePeer_spec p).2.2 q)).trans ?_
  split <;> rfl

/-! ## What is in flight is planned -/

/-- What is in flight under a handle is in flight for the planner, and under no other handle. -/
structure Planned (s : RsStrategy) : Prop where
  planned : ∀ (h : DispatchHandle) p idx, s.inFlight[h]? = some (p, idx) → idx ∈ s.planner.inFlightTo p
  unique : ∀ (h h' : DispatchHandle) v, s.inFlight[h]? = some v → s.inFlight[h']? = some v → h = h'

namespace Planned

/-- The handle map is the same and no flight is dropped. -/
theorem congr (h : s.Planned) (hfl : s'.inFlight = s.inFlight)
    (hto : ∀ q i, i ∈ s.planner.inFlightTo q → i ∈ s'.planner.inFlightTo q) : s'.Planned := by
  refine ⟨fun k q i hk => ?_, ?_⟩
  · rw [hfl] at hk
    exact hto q i (h.planned k q i hk)
  · rw [hfl]
    exact h.unique

/-- A shard that is free for its peer is dispatched. -/
theorem dispatched (h : s.Planned) {planner : EmitPlanner}
    (hall : EmitPlanner.Allocated p idx s.planner planner) (hfree : idx ∉ s.planner.inFlightTo p) :
    (s.dispatched planner p idx).Planned := by
  -- the planner did not have the shard in flight to this peer, so no old handle carries it
  have hno : ∀ k : DispatchHandle, s.inFlight[k]? ≠ some (p, idx) := fun k hk =>
    hfree (h.planned k p idx hk)
  refine ⟨fun k q i hk => ?_, fun k k' v hk hk' => ?_⟩
  · show i ∈ planner.inFlightTo q
    rw [hall.inFlightTo_eq]
    rw [get_dispatched] at hk
    split at hk
    · cases hk
      rw [if_pos rfl]
      exact (BTreeSet.mem_insert_iff _ _ _).mpr (.inl rfl)
    · have hold := h.planned k q i hk
      split
      case isTrue hq => exact (BTreeSet.mem_insert_iff _ _ _).mpr (.inr (hq ▸ hold))
      case isFalse => exact hold
  · rw [get_dispatched] at hk hk'
    split at hk <;> split at hk'
    case isTrue.isTrue hn hn' => exact hn.symm.trans hn'
    case isTrue.isFalse => exact absurd (hk'.trans hk.symm) (hno k')
    case isFalse.isTrue => exact absurd (hk.trans hk'.symm) (hno k)
    case isFalse.isFalse => exact h.unique k k' v hk hk'

/-- A flight ends in the books of its own peer. -/
theorem landed (h : s.Planned) {k : DispatchHandle} (hk : s.inFlight[k]? = some (p, idx))
    (hfl : s'.inFlight = s.inFlight.erase k)
    (hto : ∀ q, s'.planner.inFlightTo q
      = if p = q then (s.planner.inFlightTo p).erase idx else s.planner.inFlightTo q) : s'.Planned := by
  refine ⟨fun k' q i hk' => ?_, fun k₁ k₂ v h₁ h₂ => ?_⟩
  · obtain ⟨hne, hold⟩ := (get_landed hfl).mp hk'
    have hflying := h.planned k' q i hold
    rw [hto]
    split
    case isTrue hq =>
      subst hq
      -- the same shard to the same peer would be in flight under two handles
      refine (BTreeSet.mem_erase_iff _ _ _).mpr ⟨?_, hflying⟩
      rintro rfl
      exact hne (h.unique k k' _ hk hold)
    case isFalse => exact hflying
  · exact h.unique k₁ k₂ v ((get_landed hfl).mp h₁).2 ((get_landed hfl).mp h₂).2

theorem chunkSent (h : s.Planned) (p : PeerId) (k : DispatchHandle) (ok : Bool)
    (hown : ∀ v ∈ s.inFlight[k]?, v.1 = p) : (s.chunkSent p k ok).Planned := by
  cases hk : s.inFlight[k]? with
  | none => rwa [chunkSent_of_not_flying hk]
  | some v =>
    obtain ⟨q, idx⟩ := v
    obtain rfl : q = p := hown (q, idx) hk
    exact h.landed hk (s.chunkSent_inFlight q k ok) fun q' => inFlightTo_chunkSent hk q q' ok

/-- A peer leaves, with its flights. -/
theorem detachPeer (h : s.Planned) (p : PeerId) (completed : Bool) : (s.detachPeer p completed).Planned := by
  refine ⟨fun k q i hk => ?_, fun k k' v hk hk' => ?_⟩
  · obtain ⟨hold, hq⟩ := get_detachPeer.mp hk
    rw [inFlightTo_detachPeer, if_neg (Ne.symm hq)]
    exact h.planned k q i hold
  · exact h.unique k k' v (get_detachPeer.mp hk).1 (get_detachPeer.mp hk').1

end Planned

/-! ## One step of a poll -/

/-- What a poll does for one peer: nothing, or it allocates a shard that it has to cancel, or it
dispatches one. -/
inductive PollStep (p : PeerId) (s : RsStrategy) : RsStrategy → Prop
  | idle {planner} (hal : s.planner.allocate p = (none, planner))
      (hsame : EmitPlanner.SameCounts s.planner planner) : PollStep p s { s with planner }
  | cancelled {entry : EmitEntry} {planner} (hal : s.planner.allocate p = (some entry.idx, planner))
      (hentry : entry ∈ s.planner.heap) (helig : s.planner.Eligible p entry)
      (hall : EmitPlanner.Allocated p entry.idx s.planner planner) (hchunk : s.chunkAt entry.idx = none) :
      PollStep p s { s with planner := planner.cancelInFlight p entry.idx }
  | dispatched {entry : EmitEntry} {planner payload}
      (hal : s.planner.allocate p = (some entry.idx, planner)) (hentry : entry ∈ s.planner.heap)
      (helig : s.planner.Eligible p entry)
      (hall : EmitPlanner.Allocated p entry.idx s.planner planner)
      (hchunk : s.chunkAt entry.idx = some payload) : PollStep p s (s.dispatched planner p entry.idx)

/-- What every step for one of the peers preserves, a poll preserves. -/
theorem pollPeers_induct {P : RsStrategy → Prop} (peers : List PeerId) {s : RsStrategy}
    (hstep : ∀ p ∈ peers, ∀ s s', PollStep p s s' → P s → P s') (hs : P s) : P (pollPeers peers s).2 := by
  induction peers generalizing s with
  | nil => exact hs
  | cons p peers ih =>
    have hrest := fun p' hp' => hstep p' (List.mem_cons_of_mem p hp')
    have hfirst := hstep p List.mem_cons_self s
    rcases s.planner.allocate_cases p with
      ⟨planner, hal, hsame, -⟩ | ⟨entry, planner, hal, hentry, helig, hall⟩
    · rw [pollPeers_idle hal]
      exact ih hrest (hfirst _ (.idle hal hsame) hs)
    · cases hchunk : s.chunkAt entry.idx with
      | none =>
        rw [pollPeers_cancel hal hchunk]
        exact ih hrest (hfirst _ (.cancelled hal hentry helig hall hchunk) hs)
      | some payload =>
        rw [pollPeers_dispatch hal hchunk]
        exact ih hrest (hfirst _ (.dispatched hal hentry helig hall hchunk) hs)

/-- What holds of a dispatch whenever `P` holds before it holds of every dispatch of a poll, if every
step preserves `P`. -/
theorem pollPeers_forall {P : RsStrategy → Prop} {R : ChunkDispatch Nat → Prop} (peers : List PeerId)
    {s : RsStrategy} (hstep : ∀ p ∈ peers, ∀ s s', PollStep p s s' → P s → P s')
    (hnew : ∀ p ∈ peers, ∀ s (entry : EmitEntry) payload, P s → entry ∈ s.planner.heap →
      s.planner.Eligible p entry → s.chunkAt entry.idx = some payload →
      R ⟨p, entry.idx, s.nextHandle, payload⟩)
    (hs : P s) : ∀ d ∈ (pollPeers peers s).1, R d := by
  induction peers generalizing s with
  | nil => simp [pollPeers]
  | cons p peers ih =>
    have hrest : ∀ {s₁}, P s₁ → ∀ d ∈ (pollPeers peers s₁).1, R d :=
      ih (fun p' hp' => hstep p' (List.mem_cons_of_mem p hp'))
        (fun p' hp' => hnew p' (List.mem_cons_of_mem p hp'))
    have hfirst := hstep p List.mem_cons_self s
    rcases s.planner.allocate_cases p with
      ⟨planner, hal, hsame, -⟩ | ⟨entry, planner, hal, hentry, helig, hall⟩
    · rw [pollPeers_idle hal]
      exact hrest (hfirst _ (.idle hal hsame) hs)
    · cases hchunk : s.chunkAt entry.idx with
      | none =>
        rw [pollPeers_cancel hal hchunk]
        exact hrest (hfirst _ (.cancelled hal hentry helig hall hchunk) hs)
      | some payload =>
        rw [pollPeers_dispatch hal hchunk]
        refine List.forall_mem_cons.mpr ⟨?_, hrest (hfirst _ (.dispatched hal hentry helig hall hchunk) hs)⟩
        exact hnew p List.mem_cons_self s entry payload hs hentry helig hchunk

theorem PollStep.numShards_eq (h : PollStep p s s') : s'.planner.numShards = s.planner.numShards := by
  cases h with
  | idle hal hsame => exact hsame.numShards_eq
  | cancelled hal hentry helig hall hchunk => exact hall.numShards_eq
  | dispatched hal hentry helig hall hchunk => exact hall.numShards_eq

theorem pollPeers_numShards (peers : List PeerId) (s : RsStrategy) :
    (pollPeers peers s).2.planner.numShards = s.planner.numShards :=
  pollPeers_induct (P := fun s' => s'.planner.numShards = s.planner.numShards) peers
    (fun _ _ _ _ hstep hs₁ => hstep.numShards_eq.trans hs₁) rfl

/-- A pick keeps the heap sound: what it took out it puts back, with the new count. -/
theorem PollStep.heapSound (h : PollStep p s s') (hs : s.planner.HeapSound) : s'.planner.HeapSound := by
  have hheap := hs.allocate p
  cases h with
  | idle hal hsame =>
    rw [hal] at hheap
    exact hheap
  | cancelled hal hentry helig hall hchunk =>
    rw [hal] at hheap
    exact hheap.congr rfl rfl rfl
  | dispatched hal hentry helig hall hchunk =>
    rw [hal] at hheap
    exact hheap

/-- A pick is a shard of the plan. -/
theorem PollStep.planned (h : PollStep p s s') (hs : s.Planned) : s'.Planned := by
  cases h with
  | idle hal hsame => exact hs.congr rfl fun q i hi => by rwa [hsame.inFlightTo_eq]
  | cancelled hal hentry helig hall hchunk =>
    exact hs.congr rfl fun q i hi => (hall.mem_cancel helig.not_flying).mpr hi
  | dispatched hal hentry helig hall hchunk => exact hs.dispatched hall helig.not_flying

theorem Planned.pollPeers (h : s.Planned) (peers : List PeerId) : (pollPeers peers s).2.Planned :=
  pollPeers_induct peers (fun _ _ _ _ hstep => hstep.planned) h

/-- A new strategy has planned nothing. -/
theorem Fresh.planned (h : s.Fresh) : s.Planned := by
  obtain ⟨config, preamble, chunks, n, seed, mode, rfl⟩ := h
  exact ⟨by simp [withParts], by simp [withParts]⟩

/-- **What is in flight stays planned** under every operation whose callback names its own peer. -/
theorem Planned.applyOp [Crates] (h : s.Planned) (op : StrategyOp) (hown : s.OwnPeer op) :
    (s.applyOp op).Planned := by
  cases op with
  | take idx data =>
    obtain ⟨chunks, hchunks⟩ := s.takeChunk_eq idx data
    rw [RsStrategy.applyOp, hchunks]
    exact h.congr rfl fun _ _ => id
  | attach peer => exact h.congr rfl fun _ _ => id
  | detach peer completed => exact h.detachPeer peer completed
  | routing peer update =>
    exact h.congr rfl fun q i hi => (s.planner.inFlightTo_setPeerHavelist peer q _).symm ▸ hi
  | pollChunks => exact h.pollPeers _
  | pollRouting force =>
    rw [RsStrategy.applyOp]
    rcases s.pollRouting_cases force with hr | hr <;> rw [hr]
    · exact h
    · exact h.congr rfl fun _ _ => id
  | sent peer handle ok => exact h.chunkSent peer handle ok hown

/-! ## What is planned is in flight -/

/-- Strategy and planner have the same flights, each peer and shard under one handle. -/
structure Matched (s : RsStrategy) : Prop extends s.Planned where
  handled : ∀ p idx, idx ∈ s.planner.inFlightTo p → ∃ h : DispatchHandle, s.inFlight[h]? = some (p, idx)

namespace Matched

/-- The two sides of the books agree. -/
theorem agree (h : s.Matched) (p : PeerId) (idx : Nat) :
    idx ∈ s.planner.inFlightTo p ↔ ∃ k : DispatchHandle, s.inFlight[k]? = some (p, idx) :=
  ⟨h.handled p idx, fun ⟨k, hk⟩ => h.planned k p idx hk⟩

/-- The handle map and the flights are the same. -/
theorem congr (h : s.Matched) (hfl : s'.inFlight = s.inFlight)
    (hto : ∀ q i, i ∈ s'.planner.inFlightTo q ↔ i ∈ s.planner.inFlightTo q) : s'.Matched where
  toPlanned := h.toPlanned.congr hfl fun q i => (hto q i).mpr
  handled q i hi := by
    rw [hfl]
    exact h.handled q i ((hto q i).mp hi)

/-- A dispatch under a handle that is not in flight. -/
theorem dispatched (h : s.Matched) {planner : EmitPlanner}
    (hall : EmitPlanner.Allocated p idx s.planner planner) (hfree : idx ∉ s.planner.inFlightTo p)
    (hnew : s.inFlight[s.nextHandle]? = none) : (s.dispatched planner p idx).Matched where
  toPlanned := h.toPlanned.dispatched hall hfree
  handled q i hi := by
    have hold : ∀ {q i}, i ∈ s.planner.inFlightTo q →
        ∃ k : DispatchHandle, (s.dispatched planner p idx).inFlight[k]? = some (q, i) := by
      intro q i hi
      obtain ⟨k, hk⟩ := h.handled q i hi
      refine ⟨k, ?_⟩
      rw [get_dispatched, if_neg, hk]
      rintro rfl
      rw [hnew] at hk
      cases hk
    have hi' : i ∈ planner.inFlightTo q := hi
    rw [hall.inFlightTo_eq] at hi'
    split at hi'
    case isTrue hq =>
      subst hq
      rcases (BTreeSet.mem_insert_iff _ _ _).mp hi' with rfl | hi'
      · exact ⟨s.nextHandle, by rw [get_dispatched, if_pos rfl]⟩
      · exact hold hi'
    case isFalse => exact hold hi'

/-- A flight ends in both books. -/
theorem landed (h : s.Matched) {k : DispatchHandle} (hk : s.inFlight[k]? = some (p, idx))
    (hfl : s'.inFlight = s.inFlight.erase k)
    (hto : ∀ q, s'.planner.inFlightTo q
      = if p = q then (s.planner.inFlightTo p).erase idx else s.planner.inFlightTo q) : s'.Matched where
  toPlanned := h.toPlanned.landed hk hfl hto
  handled q i hi := by
    have hold : i ∈ s.planner.inFlightTo q ∧ ¬ (p = q ∧ idx = i) := by
      rw [hto] at hi
      split at hi
      case isTrue hq =>
        subst hq
        obtain ⟨hne, hi⟩ := (BTreeSet.mem_erase_iff _ _ _).mp hi
        exact ⟨hi, fun hboth => hne hboth.2⟩
      case isFalse hq => exact ⟨hi, fun hboth => hq hboth.1⟩
    obtain ⟨k', hk'⟩ := h.handled q i hold.1
    refine ⟨k', (get_landed hfl).mpr ⟨?_, hk'⟩⟩
    rintro rfl
    rw [hk] at hk'
    cases hk'
    exact hold.2 ⟨rfl, rfl⟩

theorem chunkSent (h : s.Matched) (p : PeerId) (k : DispatchHandle) (ok : Bool)
    (hown : ∀ v ∈ s.inFlight[k]?, v.1 = p) : (s.chunkSent p k ok).Matched := by
  cases hk : s.inFlight[k]? with
  | none => rwa [chunkSent_of_not_flying hk]
  | some v =>
    obtain ⟨q, idx⟩ := v
    obtain rfl : q = p := hown (q, idx) hk
    exact h.landed hk (s.chunkSent_inFlight q k ok) fun q' => inFlightTo_chunkSent hk q q' ok

theorem detachPeer (h : s.Matched) (p : PeerId) (completed : Bool) :
    (s.detachPeer p completed).Matched where
  toPlanned := h.toPlanned.detachPeer p completed
  handled q i hi := by
    rw [inFlightTo_detachPeer] at hi
    split at hi
    case isTrue => exact absurd hi ExtTreeSet.not_mem_empty
    case isFalse hq =>
      obtain ⟨k, hk⟩ := h.handled q i hi
      exact ⟨k, get_detachPeer.mpr ⟨hk, Ne.symm hq⟩⟩

end Matched

/-- A new strategy's books are empty, on both sides. -/
theorem Fresh.matched (h : s.Fresh) : s.Matched := by
  refine { h.planned with handled := ?_ }
  obtain ⟨config, preamble, chunks, n, seed, mode, rfl⟩ := h
  intro p idx hidx
  have hempty : (EmitPlanner.new n seed mode).peerState p = default := by
    simp [EmitPlanner.peerState, EmitPlanner.new]
  have hidx' : idx ∈ ((EmitPlanner.new n seed mode).peerState p).inFlight := hidx
  rw [hempty] at hidx'
  exact absurd hidx' ExtTreeSet.not_mem_empty

/-! ## Handles -/

/-- The books of a strategy: flights and handles match, every handle was issued, and is in flight to an
attached peer. -/
structure Booked (s : RsStrategy) : Prop extends s.Matched where
  below : ∀ (h : DispatchHandle) v, s.inFlight[h]? = some v → h < s.nextHandle
  attached : ∀ (h : DispatchHandle) v, s.inFlight[h]? = some v → v.1 ∈ s.attachedPeers

theorem Fresh.booked (h : s.Fresh) : s.Booked := by
  refine { h.matched with below := ?_, attached := ?_ } <;>
    obtain ⟨config, preamble, chunks, n, seed, mode, rfl⟩ := h <;> simp [withParts]

namespace Booked

/-- The next handle is not in flight. -/
theorem next_free (h : s.Booked) : s.inFlight[s.nextHandle]? = none := by
  cases hk : s.inFlight[s.nextHandle]? with
  | none => rfl
  | some v => exact absurd (h.below _ v hk) (UInt64.lt_irrefl _)

/-- The handles and the flights are the same, and no peer leaves. -/
theorem congr (h : s.Booked) (hfl : s'.inFlight = s.inFlight)
    (hto : ∀ q i, i ∈ s'.planner.inFlightTo q ↔ i ∈ s.planner.inFlightTo q)
    (hnext : s'.nextHandle = s.nextHandle) (hpeers : ∀ q ∈ s.attachedPeers, q ∈ s'.attachedPeers) :
    s'.Booked where
  toMatched := h.toMatched.congr hfl hto
  below k v hk := by
    rw [hfl] at hk
    rw [hnext]
    exact h.below k v hk
  attached k v hk := by
    rw [hfl] at hk
    exact hpeers _ (h.attached k v hk)

/-- A shard that is free for its peer is dispatched, and handles are left. -/
theorem dispatched (h : s.Booked) {planner : EmitPlanner}
    (hall : EmitPlanner.Allocated p idx s.planner planner) (hfree : idx ∉ s.planner.inFlightTo p)
    (hp : p ∈ s.attachedPeers) (hnext : s.nextHandle < s.nextHandle + 1) :
    (s.dispatched planner p idx).Booked where
  toMatched := h.toMatched.dispatched hall hfree h.next_free
  below k v hk := by
    show k < s.nextHandle + 1
    rw [get_dispatched] at hk
    split at hk
    case isTrue hk' => exact hk' ▸ hnext
    case isFalse => exact UInt64.lt_trans (h.below k v hk) hnext
  attached k v hk := by
    show v.1 ∈ s.attachedPeers
    rw [get_dispatched] at hk
    split at hk
    · cases hk
      exact hp
    · exact h.attached k v hk

/-- **A poll keeps the books**, as long as it does not run out of handles. -/
theorem pollPeers (h : s.Booked) (peers : List PeerId) (hpeers : ∀ p ∈ peers, p ∈ s.attachedPeers)
    (hfew : s.nextHandle.toNat + (RsStrategy.pollPeers peers s).1.length < 2 ^ 64) :
    (RsStrategy.pollPeers peers s).2.Booked := by
  induction peers generalizing s with
  | nil => exact h
  | cons p peers ih =>
    have hrest : ∀ q ∈ peers, q ∈ s.attachedPeers := fun q hq => hpeers q (List.mem_cons_of_mem p hq)
    rcases s.planner.allocate_cases p with
      ⟨planner, hal, hsame, -⟩ | ⟨entry, planner, hal, -, helig, hall⟩
    · rw [pollPeers_idle hal] at hfew ⊢
      exact ih (h.congr rfl (fun q i => by rw [hsame.inFlightTo_eq]) rfl fun _ => id) hrest hfew
    · cases hchunk : s.chunkAt entry.idx with
      | none =>
        rw [pollPeers_cancel hal hchunk] at hfew ⊢
        exact ih (h.congr rfl (fun q i => hall.mem_cancel helig.not_flying) rfl fun _ => id) hrest hfew
      | some payload =>
        rw [pollPeers_dispatch hal hchunk] at hfew ⊢
        simp only [List.length_cons] at hfew
        have hnext : (s.nextHandle + 1).toNat = s.nextHandle.toNat + 1 := by
          rw [UInt64.toNat_add]
          exact Nat.mod_eq_of_lt (by simp; omega)
        refine ih (h.dispatched hall helig.not_flying (hpeers p List.mem_cons_self) ?_) hrest ?_
        · rw [UInt64.lt_iff_toNat_lt, hnext]
          omega
        · show (s.nextHandle + 1).toNat + _ < _
          rw [hnext]
          omega

theorem chunkSent (h : s.Booked) (p : PeerId) (k : DispatchHandle) (ok : Bool)
    (hown : ∀ v ∈ s.inFlight[k]?, v.1 = p) : (s.chunkSent p k ok).Booked where
  toMatched := h.toMatched.chunkSent p k ok hown
  below k' v hk' := by
    rw [chunkSent_nextHandle]
    exact h.below k' v ((get_landed (s.chunkSent_inFlight p k ok)).mp hk').2
  attached k' v hk' := by
    rw [chunkSent_attachedPeers]
    exact h.attached k' v ((get_landed (s.chunkSent_inFlight p k ok)).mp hk').2

theorem detachPeer (h : s.Booked) (p : PeerId) (completed : Bool) : (s.detachPeer p completed).Booked where
  toMatched := h.toMatched.detachPeer p completed
  below k v hk := h.below k v (get_detachPeer.mp hk).1
  attached k v hk := by
    obtain ⟨hold, hp⟩ := get_detachPeer.mp hk
    exact (BTreeSet.mem_erase_iff _ _ _).mpr ⟨Ne.symm hp, h.attached k v hold⟩

end Booked

/-! ## The handles a routing update makes redundant -/

/-- The flights that a routing update makes superfluous: those to the peer, of shards that it has. -/
theorem mem_routingUpdate (s : RsStrategy) (p : PeerId) (update : BitMap) (k : DispatchHandle) :
    k ∈ (s.routingUpdate p update).1 ↔ ∃ idx, s.inFlight[k]? = some (p, idx)
      ∧ idx ∈ s.planner.inFlightTo p
      ∧ ∃ b ∈ (s.routingUpdate p update).2.planner.peerHavelist p, b.get idx := by
  have hflights := s.planner.inFlightTo_setPeerHavelist p p
  simp only [routingUpdate, EmitPlanner.peerHavelist_eq, EmitPlanner.peerState_setPeerHavelist,
    if_true, List.mem_map, List.mem_filter, Option.mem_def, Option.some.injEq,
    exists_eq_left', Bool.and_eq_true, decide_eq_true_eq, List.contains_iff_mem,
    EmitPlanner.mem_peerInFlight, hflights]
  constructor
  · rintro ⟨⟨k', q, idx⟩, ⟨hk, ⟨rfl, hfly⟩, hget⟩, rfl⟩
    exact ⟨idx, ExtTreeMap.mem_toList_iff_getElem?_eq_some.mp hk, hfly, hget⟩
  · rintro ⟨idx, hk, hfly, hget⟩
    exact ⟨(k, p, idx), ⟨ExtTreeMap.mem_toList_iff_getElem?_eq_some.mpr hk, ⟨rfl, hfly⟩, hget⟩, rfl⟩

/-- Each of them is named once. -/
theorem nodup_routingUpdate (s : RsStrategy) (p : PeerId) (update : BitMap) :
    (s.routingUpdate p update).1.Nodup := by
  have hkeys : (s.inFlight.toList.map (·.1)).Nodup := by
    rw [ExtTreeMap.map_fst_toList_eq_keys]
    exact ExtTreeMap.nodup_keys
  exact hkeys.sublist (List.filter_sublist.map _)

/-! ## Runs -/

section Run

variable [Crates]

/-- The dispatches of an operation. -/
def dispatchesOf (s : RsStrategy) : StrategyOp → List (ChunkDispatch Nat)
  | .pollChunks => s.pollChunks.1
  | _ => []

/-- The number of dispatches of a run. -/
def dispatchCount : RsStrategy → List StrategyOp → Nat
  | _, [] => 0
  | s, op :: ops => (s.dispatchesOf op).length + dispatchCount (s.applyOp op) ops

/-- Every dispatch takes a handle. -/
theorem applyOp_nextHandle (s : RsStrategy) (op : StrategyOp) :
    (s.applyOp op).nextHandle = s.nextHandle + UInt64.ofNat (s.dispatchesOf op).length := by
  cases op with
  | take idx data =>
    obtain ⟨chunks, hchunks⟩ := s.takeChunk_eq idx data
    rw [applyOp, hchunks]
    exact (UInt64.add_zero _).symm
  | attach peer => exact (UInt64.add_zero _).symm
  | detach peer completed => exact (UInt64.add_zero _).symm
  | routing peer update => exact (UInt64.add_zero _).symm
  | pollChunks => exact s.pollChunks_spec.nextHandle_eq
  | pollRouting force =>
    rw [applyOp]
    rcases s.pollRouting_cases force with hr | hr <;> rw [hr] <;> exact (UInt64.add_zero _).symm
  | sent peer handle ok => exact (s.chunkSent_nextHandle peer handle ok).trans (UInt64.add_zero _).symm

/-- One operation keeps the books, as long as it does not run out of handles. -/
theorem Booked.applyOp (h : s.Booked) (op : StrategyOp) (hown : s.OwnPeer op)
    (hfew : s.nextHandle.toNat + (s.dispatchesOf op).length < 2 ^ 64) : (s.applyOp op).Booked := by
  cases op with
  | take idx data =>
    obtain ⟨chunks, hchunks⟩ := s.takeChunk_eq idx data
    rw [RsStrategy.applyOp, hchunks]
    exact h.congr rfl (fun _ _ => .rfl) rfl fun _ => id
  | attach peer =>
    exact h.congr rfl (fun _ _ => .rfl) rfl fun q hq => (BTreeSet.mem_insert_iff _ _ _).mpr (.inr hq)
  | detach peer completed => exact h.detachPeer peer completed
  | routing peer update =>
    exact h.congr rfl (fun q i => (s.planner.inFlightTo_setPeerHavelist peer q _).symm ▸ .rfl) rfl
      fun _ => id
  | pollChunks => exact h.pollPeers _ (fun p hp => ExtTreeSet.mem_toList.mp hp) hfew
  | pollRouting force =>
    rw [RsStrategy.applyOp]
    rcases s.pollRouting_cases force with hr | hr <;> rw [hr]
    · exact h
    · exact h.congr rfl (fun _ _ => .rfl) rfl fun _ => id
  | sent peer handle ok => exact h.chunkSent peer handle ok hown

/-- A run keeps the books while handles last. -/
theorem Booked.runOps (h : s.Booked) (ops : List StrategyOp) (hown : s.EachOp OwnPeer ops)
    (hfew : s.nextHandle.toNat + s.dispatchCount ops < 2 ^ 64) : (s.runOps ops).Booked := by
  induction ops generalizing s with
  | nil => exact h
  | cons op ops ih =>
    simp only [dispatchCount] at hfew
    refine ih (h.applyOp op hown.1 (by omega)) hown.2 ?_
    have hnext : (s.applyOp op).nextHandle.toNat
        = s.nextHandle.toNat + (s.dispatchesOf op).length := by
      rw [applyOp_nextHandle, UInt64.toNat_add, UInt64.toNat_ofNat', Nat.add_mod_mod]
      exact Nat.mod_eq_of_lt (by omega)
    omega

/-- **Strategy and planner agree on what is in flight**: in a run of fewer than `2^64` dispatches whose
callbacks name their own peer, a shard is in flight to a peer exactly if one handle carries it, which
was issued to a peer that is still attached; a callback for any other handle changes nothing; and a
routing update returns the handles of what its peer has, each once. -/
theorem runOps_booked (hs : s.Built) (ops : List StrategyOp) (hown : s.EachOp OwnPeer ops)
    (hfew : s.dispatchCount ops < 2 ^ 64) :
    (∀ p idx, idx ∈ (s.runOps ops).planner.inFlightTo p
      ↔ ∃ k : DispatchHandle, (s.runOps ops).inFlight[k]? = some (p, idx))
    ∧ (∀ (k k' : DispatchHandle) v, (s.runOps ops).inFlight[k]? = some v →
      (s.runOps ops).inFlight[k']? = some v → k = k')
    ∧ (∀ (k : DispatchHandle) v, (s.runOps ops).inFlight[k]? = some v →
      k < (s.runOps ops).nextHandle ∧ v.1 ∈ (s.runOps ops).attachedPeers)
    ∧ (∀ p (k : DispatchHandle) ok, (s.runOps ops).inFlight[k]? = none →
      (s.runOps ops).chunkSent p k ok = s.runOps ops)
    ∧ ∀ p update, ((s.runOps ops).routingUpdate p update).1.Nodup
      ∧ ∀ k, k ∈ ((s.runOps ops).routingUpdate p update).1
        ↔ ∃ idx, (s.runOps ops).inFlight[k]? = some (p, idx)
          ∧ ∃ b ∈ ((s.runOps ops).routingUpdate p update).2.planner.peerHavelist p, b.get idx := by
  have hzero : s.nextHandle.toNat = 0 := by
    obtain ⟨config, preamble, chunks, n, seed, mode, rfl⟩ := hs.fresh
    rfl
  have hbooked := hs.fresh.booked.runOps ops hown (by omega)
  refine ⟨hbooked.agree, hbooked.unique, fun k v hk => ⟨hbooked.below k v hk, hbooked.attached k v hk⟩,
    fun p k ok hk => chunkSent_of_not_flying hk p ok, fun p update =>
      ⟨nodup_routingUpdate _ p update, fun k => ?_⟩⟩
  rw [mem_routingUpdate]
  constructor
  · rintro ⟨idx, hk, -, hhas⟩
    exact ⟨idx, hk, hhas⟩
  · rintro ⟨idx, hk, hhas⟩
    exact ⟨idx, hk, hbooked.planned k p idx hk, hhas⟩

end Run

section OneShard

attribute [local instance] oneShard

/-- A relay forwards two shards; one peer leaves with a shard in flight, its callback comes late, and it
is back before the next poll. -/
def rejoiningOps : List StrategyOp :=
  [.take 0 [1], .take 1 [1], .attach 1, .attach 2, .pollChunks, .pollChunks, .sent 1 0 true,
    .detach 2 false, .sent 2 1 true, .attach 2, .pollChunks]

/-- A peer leaves with a shard in flight and comes back. -/
theorem runOps_booked_rejoining :
    OneShard.relay.dispatchCount rejoiningOps = 5
    ∧ (∀ p idx, idx ∈ (OneShard.relay.runOps rejoiningOps).planner.inFlightTo p
      ↔ ∃ k : DispatchHandle, (OneShard.relay.runOps rejoiningOps).inFlight[k]? = some (p, idx))
    ∧ (OneShard.relay.runOps rejoiningOps).inFlight.toList = [(2, 1, 1), (4, 2, 0)]
    ∧ ((OneShard.relay.runOps rejoiningOps).routingUpdate 1 ⟨[3], 2, rfl⟩).1 = [2] := by
  have hbuilt : OneShard.relay.Built := .inr ⟨_, _, _, OneShard.newRelay_eq⟩
  have hown : OneShard.relay.EachOp OwnPeer rejoiningOps := by decide +kernel
  have hcount : OneShard.relay.dispatchCount rejoiningOps = 5 := by decide +kernel
  refine ⟨hcount, (runOps_booked hbuilt rejoiningOps hown (by omega)).1, ?_, ?_⟩ <;> decide +kernel

end OneShard

end RsStrategy

end Ethp2p
