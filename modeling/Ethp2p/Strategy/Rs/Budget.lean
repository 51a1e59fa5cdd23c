/-
# Ethp2p.Strategy.Rs.Budget — where the forwarding budget goes.

A relay forwards a shard at most `forward_multiplier` times; `allocation_count` is what it has spent.
`Balanced` says that every allocation is accounted for: it was sent, or a handle is in flight for it.
What carries it through `detach_peer` is that strategy and planner agree on what is in flight to
whom, with one handle per peer and shard.

`poll_chunks` allocates BEFORE it looks whether the shard is held, and cancels without a refund when it
is not.  The run keeps the balance as long as no turn of a poll falls on such a shard, nor on one whose count
stands at the last 32-bit number, and the next handles are free (`KeepsBudget`).
-/
import Ethp2p.Strategy.Rs.OneShard
import Ethp2p.Strategy.Rs.Turns

namespace Ethp2p

open Std

namespace RsStrategy

/-- The number of handles in flight for a shard. -/
def flightsOf (s : RsStrategy) (idx : Nat) : Nat := (s.inFlight.filter fun _ v => v.2 = idx).size

/-- Every allocation of every shard was sent or is in flight. -/
def Balanced (s : RsStrategy) : Prop :=
  ∀ idx, s.planner.allocationCount idx = s.planner.sentCountOf idx + s.flightsOf idx

/-- The turns of a poll fall on held shards only, whose counts have room, and there are free handles for
them. -/
structure KeepsBudget (s : RsStrategy) (turn : PeerId → Option Nat) : Prop where
  turns : s.Turns turn
  held : ∀ p ∈ s.attachedPeers.toList, ∀ idx ∈ turn p, (s.chunkAt idx).isSome
  fits : ∀ p ∈ s.attachedPeers.toList, ∀ idx ∈ turn p, s.countAtTurn turn p idx + 1 < 2 ^ 32
  free : ∀ n < s.attachedPeers.toList.countP (s.serves turn), s.nextHandle + UInt64.ofNat n ∉ s.inFlight

/-- A poll keeps the budget. -/
def PollsHeld (s : RsStrategy) : StrategyOp → Prop
  | .pollChunks => ∃ turn, s.KeepsBudget turn
  | _ => True

instance (s : RsStrategy) (turn : PeerId → Option Nat) : Decidable (s.KeepsBudget turn) :=
  -- over the attached peers, not over all ids
  have := List.decidableBAll (fun p => ∀ idx ∈ turn p, (s.chunkAt idx).isSome) s.attachedPeers.toList
  have := List.decidableBAll (fun p => ∀ idx ∈ turn p, s.countAtTurn turn p idx + 1 < 2 ^ 32)
    s.attachedPeers.toList
  decidable_of_iff (s.Turns turn ∧ (∀ p ∈ s.attachedPeers.toList, ∀ idx ∈ turn p, (s.chunkAt idx).isSome)
      ∧ (∀ p ∈ s.attachedPeers.toList, ∀ idx ∈ turn p, s.countAtTurn turn p idx + 1 < 2 ^ 32)
      ∧ ∀ n < s.attachedPeers.toList.countP (s.serves turn), s.nextHandle + UInt64.ofNat n ∉ s.inFlight)
    ⟨fun h => ⟨h.1, h.2.1, h.2.2.1, h.2.2.2⟩, fun h => ⟨h.turns, h.held, h.fits, h.free⟩⟩

/-! ## Counting flights -/

section Flights

variable {s s' : RsStrategy} {h : DispatchHandle} {p : PeerId} {idx : Nat}

/-- The flights of a shard are counted in the flights. -/
theorem flightsOf_congr (hfl : s'.inFlight = s.inFlight) (i : Nat) :
    s'.flightsOf i = s.flightsOf i := by
  rw [flightsOf, flightsOf, hfl]

theorem mem_flights {f : BTreeMap DispatchHandle (PeerId × Nat)} {h : DispatchHandle} {i : Nat} :
    h ∈ f.filter (fun _ v => v.2 = i) ↔ ∃ p, f[h]? = some (p, i) := by
  rw [BTreeMap.mem_filter_iff]
  constructor
  · rintro ⟨⟨p, j⟩, hv, hj⟩
    obtain rfl : j = i := by simpa using hj
    exact ⟨p, hv⟩
  · rintro ⟨p, hv⟩
    exact ⟨(p, i), hv, by simp⟩

/-- A new flight counts for its shard. -/
theorem flightsOf_insert (hfl : s'.inFlight = s.inFlight.insert h (p, idx)) (hnew : h ∉ s.inFlight)
    (i : Nat) : s'.flightsOf i = s.flightsOf i + if i = idx then 1 else 0 := by
  have hout : h ∉ s.inFlight.filter fun _ v => v.2 = i := by
    rw [mem_flights]
    rintro ⟨q, hq⟩
    exact hnew ((BTreeMap.mem_iff_get _ _).mpr ⟨_, hq⟩)
  rw [flightsOf, flightsOf, hfl, BTreeMap.filter_insert]
  by_cases hi : idx = i
  · rw [if_pos (by simpa using hi), if_pos hi.symm, BTreeMap.size_insert_of_not_mem hout]
  · rw [if_neg (by simpa using hi), if_neg (Ne.symm hi), BTreeMap.size_erase_of_not_mem hout,
      Nat.add_zero]

/-- A flight that has landed does not count. -/
theorem flightsOf_erase (hfl : s'.inFlight = s.inFlight.erase h)
    (hold : s.inFlight[h]? = some (p, idx)) (i : Nat) :
    s'.flightsOf i + (if i = idx then 1 else 0) = s.flightsOf i := by
  have hmem : h ∈ s.inFlight.filter (fun _ v => v.2 = i) ↔ i = idx := by
    rw [mem_flights, hold]
    simp [eq_comm]
  rw [flightsOf, flightsOf, hfl, BTreeMap.filter_erase]
  by_cases hi : i = idx
  · rw [if_pos hi, BTreeMap.size_erase_of_mem (hmem.mpr hi)]
  · rw [if_neg hi, BTreeMap.size_erase_of_not_mem (hmem.not.mpr hi), Nat.add_zero]

end Flights

/-! ## The invariant -/

/-- Balanced, and strategy and planner agree on what is in flight to whom, one handle for each peer
and shard. -/
structure Accounted (s : RsStrategy) : Prop where
  balanced : s.Balanced
  agree : ∀ p idx, idx ∈ s.planner.inFlightTo p ↔ ∃ h : DispatchHandle, s.inFlight[h]? = some (p, idx)
  unique : ∀ (h h' : DispatchHandle) v, s.inFlight[h]? = some v → s.inFlight[h']? = some v → h = h'

namespace Accounted

variable {s s' : RsStrategy}

theorem matched (h : Accounted s) : s.Matched where
  planned k p idx hk := (h.agree p idx).mpr ⟨k, hk⟩
  unique := h.unique
  handled p idx := (h.agree p idx).mp

/-- Books that match and counts that balance are all there is to account for. -/
theorem of_matched (hbalanced : s.Balanced) (h : s.Matched) : Accounted s := ⟨hbalanced, h.agree, h.unique⟩

/-- Only the planner's counts, its flights and the handle map matter. -/
theorem congr (h : Accounted s) (hfl : s'.inFlight = s.inFlight)
    (halloc : s'.planner.allocation = s.planner.allocation)
    (hsent : s'.planner.sentCount = s.planner.sentCount)
    (hto : ∀ p, s'.planner.inFlightTo p = s.planner.inFlightTo p) : Accounted s' where
  balanced idx := by
    rw [flightsOf_congr hfl, EmitPlanner.allocationCount, EmitPlanner.sentCountOf, halloc, hsent]
    exact h.balanced idx
  agree p idx := by
    rw [hto, hfl]
    exact h.agree p idx
  unique k k' v := by
    rw [hfl]
    exact h.unique k k' v

/-- A dispatch: one allocation and one flight more. -/
theorem dispatched (h : Accounted s) {planner : EmitPlanner} {p : PeerId} {idx : Nat}
    (halloc : EmitPlanner.Allocated p idx s.planner planner) (hroom : s.planner.allocationCount idx + 1 < 2 ^ 32)
    (hfree : idx ∉ s.planner.inFlightTo p) (hnew : s.nextHandle ∉ s.inFlight) :
    Accounted (s.dispatched planner p idx) := by
  refine .of_matched (fun i => ?_)
    (h.matched.dispatched halloc hfree (ExtTreeMap.getElem?_eq_none hnew))
  have hcount := h.balanced i
  have hsent : (s.dispatched planner p idx).planner.sentCountOf i = s.planner.sentCountOf i := by
    rw [EmitPlanner.sentCountOf, EmitPlanner.sentCountOf]
    exact congrArg (fun m => (m.getD i 0).toNat) halloc.sentCount_eq
  have hto : (s.dispatched planner p idx).planner.allocationCount i
      = if i = idx then s.planner.allocationCount i + 1 else s.planner.allocationCount i := by
    refine (halloc.allocationCount_eq i).trans ?_
    split
    case isTrue hi => rw [hi, Nat.mod_eq_of_lt hroom]
    case isFalse => rfl
  rw [hto, hsent, flightsOf_insert (s := s) rfl hnew]
  split <;> omega

/-- A flight ends: it was sent and counts as sent, or its allocation is given back. -/
theorem landed (h : Accounted s) {k : DispatchHandle} {p : PeerId} {idx : Nat}
    (hk : s.inFlight[k]? = some (p, idx)) (hfl : s'.inFlight = s.inFlight.erase k)
    (hto : ∀ q, s'.planner.inFlightTo q
      = if p = q then (s.planner.inFlightTo p).erase idx else s.planner.inFlightTo q)
    (hcount : ∀ i, s'.planner.allocationCount i + s.planner.sentCountOf i + (if i = idx then 1 else 0)
      = s.planner.allocationCount i + s'.planner.sentCountOf i) : Accounted s' := by
  refine .of_matched (fun i => ?_) (h.matched.landed hk hfl hto)
  have hold := h.balanced i
  have hnew := hcount i
  have hflights := flightsOf_erase hfl hk i
  omega

/-- A flight was allocated, and is not yet among what was sent. -/
theorem sentCountOf_lt (h : Accounted s) {k : DispatchHandle} {p : PeerId} {idx : Nat}
    (hk : s.inFlight[k]? = some (p, idx)) : s.planner.sentCountOf idx < s.planner.allocationCount idx := by
  have hbalanced := h.balanced idx
  have hflights : { s with inFlight := s.inFlight.erase k }.flightsOf idx + (if idx = idx then 1 else 0)
      = s.flightsOf idx := flightsOf_erase rfl hk idx
  rw [if_pos rfl] at hflights
  omega

/-- A callback of a dispatch by its own peer. -/
theorem chunkSent (h : Accounted s) (p : PeerId) (k : DispatchHandle) (ok : Bool)
    (hown : ∀ v ∈ s.inFlight[k]?, v.1 = p) : Accounted (s.chunkSent p k ok) := by
  cases hk : s.inFlight[k]? with
  | none => rwa [chunkSent_of_not_flying hk]
  | some v =>
    obtain ⟨q, idx⟩ := v
    obtain rfl : q = p := hown (q, idx) hk
    refine h.landed hk (s.chunkSent_inFlight q k ok) (fun q' => inFlightTo_chunkSent hk q q' ok)
      fun i => ?_
    have hpos := h.sentCountOf_lt hk
    rw [chunkSent_of_flying hk]
    cases ok with
    | true =>
      obtain ⟨halloc, hsent, -⟩ := s.planner.recordSent_spec q idx
      have hsame : (s.planner.recordSent q idx).allocationCount i = s.planner.allocationCount i :=
        congrArg (fun m => (m.getD i 0).toNat) halloc
      -- what was sent is less than what was allocated, so it counts on without a wrap
      have hroom := h.sentCountOf_lt hk
      have hlast := s.planner.allocationCount_lt idx
      rw [if_pos rfl, hsent, hsame]
      by_cases hi : i = idx
      · subst hi
        simp only [if_true]
        omega
      · simp only [if_neg hi]
        omega
    | false =>
      obtain ⟨halloc, hsent, -⟩ := (s.planner.cancelInFlight q idx).refundAllocation_spec idx
      have hsame : (s.planner.cancelInFlight q idx).allocationCount i
          = s.planner.allocationCount i := rfl
      have hsent' : (s.planner.cancelInFlight q idx).sentCount = s.planner.sentCount := rfl
      rw [if_neg Bool.false_ne_true, halloc, hsame, EmitPlanner.sentCountOf, EmitPlanner.sentCountOf,
        hsent, hsent']
      by_cases hi : i = idx
      · subst hi
        simp only [if_true]
        omega
      · simp only [if_neg hi]
        omega

/-- A detached peer had one flight for each shard in flight to it. -/
theorem flightsOf_detachPeer (h : Accounted s) (p : PeerId) (completed : Bool) (i : Nat) :
    (s.detachPeer p completed).flightsOf i + (if i ∈ s.planner.inFlightTo p then 1 else 0)
      = s.flightsOf i := by
  have hfl : (s.detachPeer p completed).flightsOf i
      = ((s.inFlight.filter fun _ v => v.1 ≠ p).filter fun _ v => v.2 = i).size := rfl
  have hget : ∀ k : DispatchHandle,
      ((s.inFlight.filter fun _ v => v.1 ≠ p).filter fun _ v => v.2 = i)[k]?
        = (s.inFlight[k]?.filter (fun v => v.1 ≠ p)).filter (fun v => v.2 = i) := by
    intro k
    rw [BTreeMap.get_filter, BTreeMap.get_filter]
  rw [hfl, flightsOf]
  -- at most one flight of the shard goes to `p`, and it is the one that is dropped
  split
  case isTrue hmem =>
    obtain ⟨k, hk⟩ := (h.agree p i).mp hmem
    have herase : ((s.inFlight.filter fun _ v => v.1 ≠ p).filter fun _ v => v.2 = i)
        = (s.inFlight.filter fun _ v => v.2 = i).erase k := by
      refine ExtTreeMap.ext_getElem? fun k' => ?_
      rw [hget, BTreeMap.get_erase, BTreeMap.get_filter]
      split
      case isTrue hkk =>
        rw [← hkk, hk]
        simp
      case isFalse hkk =>
        cases hk' : s.inFlight[k']? with
        | none => rfl
        | some v =>
          obtain ⟨q, j⟩ := v
          by_cases hq : q = p
          · -- another handle for the same peer carries another shard
            have hj : j ≠ i := by
              rintro rfl
              exact hkk (h.unique k k' (p, j) hk (hq ▸ hk'))
            simp [Option.filter_some, hq, hj]
          · simp [Option.filter_some, hq]
    rw [herase, BTreeMap.size_erase_of_mem (mem_flights.mpr ⟨p, hk⟩)]
  case isFalse hmem =>
    have hsame : ((s.inFlight.filter fun _ v => v.1 ≠ p).filter fun _ v => v.2 = i)
        = s.inFlight.filter fun _ v => v.2 = i := by
      refine ExtTreeMap.ext_getElem? fun k' => ?_
      rw [hget, BTreeMap.get_filter]
      cases hk' : s.inFlight[k']? with
      | none => rfl
      | some v =>
        obtain ⟨q, j⟩ := v
        by_cases hq : q = p
        · have hj : j ≠ i := by
            rintro rfl
            exact hmem ((h.agree p j).mpr ⟨k', hq ▸ hk'⟩)
          simp [Option.filter_some, hq, hj]
        · simp [Option.filter_some, hq]
    rw [hsame, Nat.add_zero]

/-- A detached peer's flights are gone and their allocations given back. -/
theorem detachPeer (h : Accounted s) (p : PeerId) (completed : Bool) :
    Accounted (s.detachPeer p completed) := by
  obtain ⟨halloc, hsent, -⟩ := s.planner.removePeer_spec p
  refine .of_matched (fun i => ?_) (h.matched.detachPeer p completed)
  have hold := h.balanced i
  have hflights := h.flightsOf_detachPeer p completed i
  have halloc' : (s.detachPeer p completed).planner.allocationCount i = _ := halloc i
  have hsent' : (s.detachPeer p completed).planner.sentCountOf i = s.planner.sentCountOf i :=
    congrArg (fun m => (m.getD i 0).toNat) hsent
  rw [halloc', hsent']
  by_cases hi : i ∈ s.planner.inFlightTo p
  · simp only [if_pos hi] at hflights ⊢
    omega
  · simp only [if_neg hi] at hflights ⊢
    omega

/-- **A poll that keeps the budget.** -/
theorem pollChunks (h : Accounted s) (hranked : s.planner.HeapRanked) {turn : PeerId → Option Nat}
    (hkeeps : s.KeepsBudget turn) : Accounted s.pollChunks.2 := by
  refine pollPeers_turns (P := fun _ _ s₁ => Accounted s₁) hranked s.attachedPeers_sorted hkeeps.turns ?_ h
  intro before p ds s₁ hpre hsofar hfalls hacc
  have hp : p ∈ s.attachedPeers.toList := hpre.subset (List.mem_append_right _ (List.mem_singleton_self p))
  have hstep := (pollPeers_one p s₁).1
  generalize (pollPeers [p] s₁).2 = s₂ at hstep ⊢
  cases hstep with
  | @idle planner hal hsame =>
    exact hacc.congr rfl hsame.allocation_eq hsame.sentCount_eq fun q =>
      congrArg PeerState.inFlight (hsame.peerState_eq q)
  | @cancelled entry planner hal hentry helig hall hchunk =>
    rw [hal] at hfalls
    have hheld := hkeeps.held p hp entry.idx hfalls.symm
    rw [← hsofar.chunkAt_eq, hchunk] at hheld
    cases hheld
  | @dispatched entry planner payload hal hentry helig hall hchunk =>
    rw [hal] at hfalls
    refine hacc.dispatched hall ?_ helig.not_flying fun htaken => ?_
    · rw [hsofar.count_at_turn hpre]
      exact hkeeps.fits p hp entry.idx hfalls.symm
    -- the next handle is one of those that are free
    · have hserves : s.serves turn p := by
        rw [serves, ← hfalls, Option.any_some, ← hsofar.chunkAt_eq, hchunk]
        rfl
      have hlt : before.countP (s.serves turn) < s.attachedPeers.toList.countP (s.serves turn) := by
        refine Nat.lt_of_lt_of_le ?_ (hpre.sublist.countP_le)
        rw [List.countP_append, List.countP_singleton, if_pos hserves]
        exact Nat.lt_succ_self _
      rcases hsofar.handles _ htaken with hold | ⟨n, hn, heq⟩
      · rw [hsofar.nextHandle_eq] at hold
        exact hkeeps.free _ hlt hold
      · rw [hsofar.nextHandle_eq] at heq
        have hfew : s.attachedPeers.toList.countP (s.serves turn) ≤ 2 ^ 64 :=
          List.countP_le_length.trans s.length_attachedPeers_le
        have hnat := congrArg UInt64.toNat ((UInt64.add_right_inj _).mp heq)
        rw [UInt64.toNat_ofNat', UInt64.toNat_ofNat', Nat.mod_eq_of_lt (by omega),
          Nat.mod_eq_of_lt (by omega)] at hnat
        omega

end Accounted

/-- A fresh strategy has spent nothing. -/
theorem Fresh.accounted {s : RsStrategy} (h : s.Fresh) : Accounted s := by
  refine .of_matched (fun idx => ?_) h.matched
  obtain ⟨config, preamble, chunks, n, seed, mode, rfl⟩ := h
  show 0 = 0 + (ExtTreeMap.filter _ ∅).size
  rfl

section Run

variable [Crates] {s : RsStrategy}

/-- One operation keeps the books, unless it is a poll that does not keep the budget. -/
theorem Accounted.applyOp (h : Accounted s) (hranked : s.planner.HeapRanked) (op : StrategyOp)
    (hown : s.OwnPeer op) (hheld : s.PollsHeld op) : Accounted (s.applyOp op) := by
  cases op with
  | take idx data =>
    obtain ⟨chunks, hchunks⟩ := s.takeChunk_eq idx data
    rw [RsStrategy.applyOp, hchunks]
    exact h.congr rfl rfl rfl fun _ => rfl
  | attach peer => exact h.congr rfl rfl rfl fun _ => rfl
  | detach peer completed => exact h.detachPeer peer completed
  | routing peer update =>
    exact h.congr rfl rfl rfl fun p => s.planner.inFlightTo_setPeerHavelist peer p _
  | pollChunks =>
    obtain ⟨turn, hkeeps⟩ := hheld
    exact h.pollChunks hranked hkeeps
  | pollRouting force =>
    rw [RsStrategy.applyOp]
    rcases s.pollRouting_cases force with hr | hr <;> rw [hr]
    · exact h
    · exact h.congr rfl rfl rfl fun _ => rfl
  | sent peer handle ok => exact h.chunkSent peer handle ok hown

/-- **No forwarding budget leaks** in a run whose polls keep the budget: every allocation was sent or is in
flight. -/
theorem runOps_balanced (hs : s.Built) (ops : List StrategyOp) (hown : s.EachOp OwnPeer ops)
    (hheld : s.EachOp PollsHeld ops) : (s.runOps ops).Balanced := by
  have hrun := (hown.and hheld).run (Q := fun s => s.planner.HeapRanked ∧ Accounted s)
    (fun _ op hop h => ⟨applyOp_heapRanked h.1 op, h.2.applyOp h.1 op hop.1 hop.2⟩)
    ⟨hs.fresh.heapRanked, hs.fresh.accounted⟩
  exact hrun.2.balanced

end Run

section OneShard

attribute [local instance] oneShard

/-- A relay that is given both shards, forwards them, and loses a peer. -/
def forwardingOps : List StrategyOp :=
  [.take 0 [1], .take 1 [1], .attach 1, .attach 2, .pollChunks, .sent 1 0 true, .sent 2 1 false,
    .pollChunks, .detach 2 false]

/-- A relay forwards what it holds. -/
theorem runOps_balanced_forwarding :
    OneShard.relay.EachOp OwnPeer forwardingOps ∧ OneShard.relay.EachOp PollsHeld forwardingOps
    ∧ (OneShard.relay.runOps forwardingOps).Balanced := by
  have hbuilt : OneShard.relay.Built := .inr ⟨_, _, _, OneShard.newRelay_eq⟩
  have hown : OneShard.relay.EachOp OwnPeer forwardingOps := by decide +kernel
  have hfirst : (OneShard.relay.runOps [.take 0 [1], .take 1 [1], .attach 1, .attach 2]).KeepsBudget
      fun p => if p = 1 then some 0 else some 1 := by
    decide +kernel
  have hsecond : (OneShard.relay.runOps [.take 0 [1], .take 1 [1], .attach 1, .attach 2, .pollChunks,
      .sent 1 0 true, .sent 2 1 false]).KeepsBudget fun p => if p = 1 then some 1 else some 0 := by
    decide +kernel
  have hheld : OneShard.relay.EachOp PollsHeld forwardingOps :=
    ⟨trivial, trivial, trivial, trivial, ⟨_, hfirst⟩, trivial, trivial, ⟨_, hsecond⟩, trivial, trivial⟩
  exact ⟨hown, hheld, runOps_balanced hbuilt forwardingOps hown hheld⟩

/-- A relay that holds nothing is polled for one peer: the allocation of shard 0 is cancelled, and
never given back. -/
theorem runOps_not_balanced_unheld :
    OneShard.relay.Built ∧ OneShard.relay.EachOp OwnPeer [.attach 1, .pollChunks]
    ∧ ¬ (OneShard.relay.runOps [.attach 1, .pollChunks]).Balanced := by
  refine ⟨.inr ⟨_, _, _, OneShard.newRelay_eq⟩, by decide +kernel, fun h => ?_⟩
  have hspent : (OneShard.relay.runOps [.attach 1, .pollChunks]).planner.allocationCount 0 = 1
      ∧ (OneShard.relay.runOps [.attach 1, .pollChunks]).planner.sentCountOf 0 = 0
      ∧ (OneShard.relay.runOps [.attach 1, .pollChunks]).flightsOf 0 = 0 := by decide +kernel
  have hbalanced := h 0
  omega

end OneShard

end RsStrategy

end Ethp2p
