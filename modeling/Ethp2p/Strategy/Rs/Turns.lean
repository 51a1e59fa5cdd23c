/-
# Ethp2p.Strategy.Rs.Turns — on which shards the turns of a poll fall.

A poll asks the planner for one shard for each attached peer, in the order of their ids.  Whatever shard a
turn falls on, the planner counts it, so that it ranks behind for the later turns.  `Turns` says on which
shards the turns fall in terms of the counts, the havelists and the flights before the poll: each on the
shard that is then the cheapest of those open to the peer.  It mentions no heap and runs no operation.

`pollPeers_turns` says that a poll goes by it, at every turn: `Sofar` describes the strategy after some of
the turns, and `exists_turns` says that there always are such turns.
-/
import Ethp2p.Strategy.Rs.Allocation
import Ethp2p.Strategy.Rs.Books

namespace Ethp2p

open Std

namespace EmitPlanner

/-! ## Turns -/

/-- What a turn falls on at these counts: the cheapest shard open to the peer, or nothing if none is. -/
def FallsOn (pl : EmitPlanner) (count : Nat → Nat) (p : PeerId) : Option Nat → Prop
  | some idx => pl.CheapestAt count p idx
  | none => ∀ idx, ¬ pl.OpenAt count p idx

/-- The counts at the turn of a peer: each earlier turn on a shard has counted it once more. -/
def countAtTurn (count : Nat → Nat) (peers : List PeerId) (turn : PeerId → Option Nat) (p : PeerId)
    (idx : Nat) : Nat :=
  (count idx + peers.countP fun q => q < p ∧ turn q = some idx) % 2 ^ 32

/-- The turns of these peers, in the order of their ids. -/
def Turns (pl : EmitPlanner) (peers : List PeerId) (turn : PeerId → Option Nat) : Prop :=
  ∀ p ∈ peers, pl.FallsOn (countAtTurn pl.allocationCount peers turn p) p (turn p)

variable {pl pl' : EmitPlanner} {p q : PeerId} {count : Nat → Nat} {turn turn' : PeerId → Option Nat}
  {peers before : List PeerId} {idx i : Nat}

/-- The choice falls on one shard at most: it is the least in the planner's order. -/
theorem FallsOn.unique {o o' : Option Nat} (h : pl.FallsOn count p o) (h' : pl.FallsOn count p o') : o = o' := by
  cases o with
  | none =>
    cases o' with
    | none => rfl
    | some idx => exact absurd h'.isOpen (h idx)
  | some idx =>
    cases o' with
    | none => exact absurd h.isOpen (h' idx)
    | some idx' => exact congrArg some (CheapestAt.unique h h')

/-- What an allocation gives is what the turn falls on. -/
theorem HeapRanked.fallsOn (h : pl.HeapRanked) (p : PeerId) :
    pl.FallsOn pl.allocationCount p (pl.allocate p).1 := by
  have hspec := h.allocate_spec p
  generalize pl.allocate p = result at hspec ⊢
  obtain ⟨_ | idx, pl'⟩ := result
  · exact hspec.1
  · exact hspec.1

/-- Two planners choose among the same shards for a peer, counts apart. -/
structure SameView (p : PeerId) (pl pl' : EmitPlanner) : Prop where
  mode_eq : pl'.mode = pl.mode
  numShards_eq : pl'.numShards = pl.numShards
  seed_eq : pl'.seed = pl.seed
  peerState_eq : pl'.peerState p = pl.peerState p

theorem SameView.trans {pl'' : EmitPlanner} (h : SameView p pl pl') (h' : SameView p pl' pl'') :
    SameView p pl pl'' :=
  ⟨h'.mode_eq.trans h.mode_eq, h'.numShards_eq.trans h.numShards_eq, h'.seed_eq.trans h.seed_eq,
    h'.peerState_eq.trans h.peerState_eq⟩

/-- A peer that sees the same has the same shards open to it. -/
theorem SameView.openAt_iff (h : SameView p pl pl') : pl'.OpenAt count p idx ↔ pl.OpenAt count p idx := by
  have hcap : pl'.cap = pl.cap := by rw [cap, cap, h.mode_eq]
  have hflying : pl'.inFlightTo p = pl.inFlightTo p := congrArg PeerState.inFlight h.peerState_eq
  constructor
  · rintro ⟨hlt, hbelow, hhad, hfree⟩
    rw [h.numShards_eq] at hlt
    rw [hcap] at hbelow
    rw [h.peerState_eq] at hhad
    rw [hflying] at hfree
    exact ⟨hlt, hbelow, hhad, hfree⟩
  · rintro ⟨hlt, hbelow, hhad, hfree⟩
    rw [← h.numShards_eq] at hlt
    rw [← hcap] at hbelow
    rw [← h.peerState_eq] at hhad
    rw [← hflying] at hfree
    exact ⟨hlt, hbelow, hhad, hfree⟩

/-- For a peer that sees the same, the choice falls on the same shard. -/
theorem SameView.fallsOn_iff (h : SameView p pl pl') {o : Option Nat} :
    pl'.FallsOn count p o ↔ pl.FallsOn count p o := by
  cases o with
  | none => exact forall_congr' fun idx => not_congr h.openAt_iff
  | some idx =>
    have hrank : ∀ i, pl'.rankAt count i = pl.rankAt count i := fun i => by rw [rankAt, rankAt, h.seed_eq]
    constructor
    · rintro ⟨hopen, hleast⟩
      refine ⟨h.openAt_iff.mp hopen, fun i hi => ?_⟩
      rw [← hrank, ← hrank]
      exact hleast i (h.openAt_iff.mpr hi)
    · rintro ⟨hopen, hleast⟩
      refine ⟨h.openAt_iff.mpr hopen, fun i hi => ?_⟩
      rw [hrank, hrank]
      exact hleast i (h.openAt_iff.mp hi)

/-! ## One after the other -/

/-- Among the peers in the order of their ids, those before `p` are the earlier ones. -/
theorem countP_lt_of_sorted {f : PeerId → Bool} {after : List PeerId}
    (hsorted : (before ++ p :: after).Pairwise (· < ·)) :
    (before ++ p :: after).countP (fun q => decide (q < p ∧ f q = true)) = before.countP f := by
  obtain ⟨-, hafter, hcross⟩ := List.pairwise_append.mp hsorted
  rw [List.countP_append, List.countP_cons]
  have hnone : after.countP (fun q => decide (q < p ∧ f q = true)) = 0 := by
    refine List.countP_eq_zero.mpr fun q hq => ?_
    have hlt := (List.pairwise_cons.mp hafter).1 q hq
    simp [UInt64.not_lt.mpr (UInt64.le_of_lt hlt)]
  have hall : before.countP (fun q => decide (q < p ∧ f q = true)) = before.countP f := by
    refine List.countP_congr fun q hq => ?_
    simp [hcross q hq p List.mem_cons_self]
  rw [hnone, hall]
  simp

/-- The count at a peer's turn, counted over the peers before it. -/
theorem countAtTurn_of_sorted {after : List PeerId} (hsorted : (before ++ p :: after).Pairwise (· < ·))
    (idx : Nat) : countAtTurn count (before ++ p :: after) turn p idx
      = (count idx + before.countP fun q => turn q = some idx) % 2 ^ 32 := by
  have hcount := countP_lt_of_sorted (f := fun q => turn q = some idx) hsorted
  simp only [decide_eq_true_eq] at hcount
  rw [countAtTurn, hcount]

/-- One peer more, after the others, changes neither their counts nor finds them changed. -/
theorem countAtTurn_append_last (hlast : ¬ p < q) (hturn : ∀ r ∈ before, turn' r = turn r) :
    countAtTurn count (before ++ [p]) turn' q = countAtTurn count before turn q := by
  funext idx
  have hbefore : before.countP (fun r => decide (r < q ∧ turn' r = some idx))
      = before.countP fun r => decide (r < q ∧ turn r = some idx) :=
    List.countP_congr fun r hr => by rw [hturn r hr]
  rw [countAtTurn, countAtTurn, List.countP_append, hbefore, List.countP_singleton]
  simp [hlast]

/-- At any counts there is something, or nothing, for a turn to fall on. -/
theorem exists_fallsOn (pl : EmitPlanner) (count : Nat → Nat) (p : PeerId) : ∃ o, pl.FallsOn count p o := by
  classical
  by_cases hopen : ∃ idx, pl.OpenAt count p idx
  · obtain ⟨idx, hidx⟩ := hopen
    obtain ⟨least, hmem, hleast⟩ := ((Finset.range pl.numShards).filter (pl.OpenAt count p)).exists_min_image
      (pl.rankAt count) ⟨idx, Finset.mem_filter.mpr ⟨Finset.mem_range.mpr hidx.in_range, hidx⟩⟩
    refine ⟨some least, (Finset.mem_filter.mp hmem).2, fun i hi => ?_⟩
    exact hleast i (Finset.mem_filter.mpr ⟨Finset.mem_range.mpr hi.in_range, hi⟩)
  · exact ⟨none, fun idx hidx => hopen ⟨idx, hidx⟩⟩

/-- **There always are such turns.** -/
theorem exists_turns (pl : EmitPlanner) (hsorted : peers.Pairwise (· < ·)) : ∃ turn, pl.Turns peers turn := by
  induction peers using List.reverseRecOn with
  | nil => exact ⟨fun _ => none, fun p hp => by cases hp⟩
  | append_singleton before p ih =>
    obtain ⟨hbefore, -, hlast⟩ := List.pairwise_append.mp hsorted
    obtain ⟨turn, hturn⟩ := ih hbefore
    obtain ⟨o, ho⟩ := pl.exists_fallsOn (countAtTurn pl.allocationCount before turn p) p
    have hearlier : ∀ r ∈ before, Function.update turn p o r = turn r := fun r hr => by
      have hlt := hlast r hr p (List.mem_singleton_self p)
      rw [Function.update_of_ne]
      rintro rfl
      exact UInt64.lt_irrefl r hlt
    refine ⟨Function.update turn p o, fun q hq => ?_⟩
    rcases List.mem_append.mp hq with hq | hq
    · have hlt := hlast q hq p (List.mem_singleton_self p)
      rw [countAtTurn_append_last (UInt64.not_lt.mpr (UInt64.le_of_lt hlt)) hearlier, hearlier q hq]
      exact hturn q hq
    · obtain rfl := List.mem_singleton.mp hq
      rw [countAtTurn_append_last (UInt64.lt_irrefl q) hearlier, Function.update_self]
      exact ho

/-! ## Deciding -/

instance (pl : EmitPlanner) (count : Nat → Nat) (p : PeerId) (idx : Nat) : Decidable (pl.OpenAt count p idx) :=
  decidable_of_iff (idx < pl.numShards ∧ (∀ cap ∈ pl.cap, count idx < cap)
      ∧ (∀ b ∈ (pl.peerState p).optimisticHavelist, b.get idx = false) ∧ idx ∉ pl.inFlightTo p)
    ⟨fun h => ⟨h.1, h.2.1, h.2.2.1, h.2.2.2⟩, fun h => ⟨h.in_range, h.below_cap, h.not_had, h.not_flying⟩⟩

instance (pl : EmitPlanner) (count : Nat → Nat) (p : PeerId) (o : Option Nat) :
    Decidable (pl.FallsOn count p o) :=
  match o with
  | some idx =>
    decidable_of_iff (pl.OpenAt count p idx
        ∧ ∀ i < pl.numShards, pl.OpenAt count p i → pl.rankAt count idx ≤ pl.rankAt count i)
      ⟨fun h => ⟨h.1, fun i hi => h.2 i hi.in_range hi⟩, fun h => ⟨h.isOpen, fun i _ hi => h.least i hi⟩⟩
  | none =>
    decidable_of_iff (∀ idx < pl.numShards, ¬ pl.OpenAt count p idx)
      ⟨fun h idx hidx => h idx hidx.in_range hidx, fun h idx _ => h idx⟩

instance (pl : EmitPlanner) (peers : List PeerId) (turn : PeerId → Option Nat) : Decidable (pl.Turns peers turn) :=
  -- over these peers, not over all ids
  List.decidableBAll (fun p => pl.FallsOn (countAtTurn pl.allocationCount peers turn p) p (turn p)) peers

end EmitPlanner

namespace RsStrategy

variable {s s' s₁ s₂ : RsStrategy} {p q : PeerId} {turn : PeerId → Option Nat} {peers before : List PeerId}
  {idx i : Nat}

/-- The turns of a poll. -/
abbrev Turns (s : RsStrategy) (turn : PeerId → Option Nat) : Prop :=
  s.planner.Turns s.attachedPeers.toList turn

/-- The count of a shard at a turn of a poll. -/
abbrev countAtTurn (s : RsStrategy) (turn : PeerId → Option Nat) (p : PeerId) (idx : Nat) : Nat :=
  EmitPlanner.countAtTurn s.planner.allocationCount s.attachedPeers.toList turn p idx

/-- A turn that falls on a shard the strategy holds is one that dispatches. -/
def serves (s : RsStrategy) (turn : PeerId → Option Nat) (p : PeerId) : Bool :=
  (turn p).any fun idx => (s.chunkAt idx).isSome

/-! ## A poll, turn by turn -/

/-- A poll of some peers and then of others. -/
theorem pollPeers_append (before peers : List PeerId) (s : RsStrategy) :
    pollPeers (before ++ peers) s = ((pollPeers before s).1 ++ (pollPeers peers (pollPeers before s).2).1,
      (pollPeers peers (pollPeers before s).2).2) := by
  induction before generalizing s with
  | nil => rfl
  | cons p before ih =>
    rcases s.planner.allocate_cases p with
      ⟨planner, hal, -, -⟩ | ⟨entry, planner, hal, -, -, -⟩
    · rw [List.cons_append, pollPeers_idle hal, pollPeers_idle hal, ih]
    · cases hchunk : s.chunkAt entry.idx with
      | none => rw [List.cons_append, pollPeers_cancel hal hchunk, pollPeers_cancel hal hchunk, ih]
      | some payload =>
        rw [List.cons_append, pollPeers_dispatch hal hchunk, pollPeers_dispatch hal hchunk, ih]
        rfl

/-- One turn: what it falls on, whether it dispatches, and what it does. -/
theorem pollPeers_one (p : PeerId) (s : RsStrategy) :
    PollStep p s (pollPeers [p] s).2
    ∧ ((pollPeers [p] s).1 = [] ↔ ∀ idx ∈ (s.planner.allocate p).1, s.chunkAt idx = none) := by
  rcases s.planner.allocate_cases p with
    ⟨planner, hal, hsame, -⟩ | ⟨entry, planner, hal, hentry, helig, hall⟩
  · rw [pollPeers_idle hal, hal]
    exact ⟨.idle hal hsame, iff_of_true rfl fun idx hidx => by cases hidx⟩
  · cases hchunk : s.chunkAt entry.idx with
    | none =>
      rw [pollPeers_cancel hal hchunk, hal]
      refine ⟨.cancelled hal hentry helig hall hchunk, iff_of_true rfl fun idx hidx => ?_⟩
      rwa [← Option.some.inj hidx]
    | some payload =>
      rw [pollPeers_dispatch hal hchunk, hal]
      refine ⟨.dispatched hal hentry helig hall hchunk, iff_of_false (List.cons_ne_nil _ _) fun hall => ?_⟩
      rw [hall entry.idx rfl] at hchunk
      cases hchunk

/-- A turn raises the count of the shard it falls on. -/
theorem PollStep.allocationCount_eq (h : PollStep p s s') (i : Nat) :
    s'.planner.allocationCount i = if (s.planner.allocate p).1 = some i
      then (s.planner.allocationCount i + 1) % 2 ^ 32 else s.planner.allocationCount i := by
  cases h with
  | @idle planner hal hsame =>
    rw [hal, if_neg (by simp)]
    show planner.allocationCount i = _
    rw [EmitPlanner.allocationCount, EmitPlanner.allocationCount, hsame.allocation_eq]
  | @cancelled entry planner hal hentry helig hall hchunk =>
    rw [hal]
    refine (hall.allocationCount_eq i).trans ?_
    simp only [Option.some.injEq, eq_comm]
  | @dispatched entry planner payload hal hentry helig hall hchunk =>
    rw [hal]
    refine (hall.allocationCount_eq i).trans ?_
    simp only [Option.some.injEq, eq_comm]

/-- A turn of one peer is invisible to the choice for another, the counts apart. -/
theorem PollStep.sameView (h : PollStep p s s') (hq : p ≠ q) :
    EmitPlanner.SameView q s.planner s'.planner := by
  cases h with
  | @idle planner hal hsame =>
    exact ⟨hsame.mode_eq, hsame.numShards_eq, hsame.seed_eq, hsame.peerState_eq q⟩
  | @cancelled entry planner hal hentry helig hall hchunk =>
    refine ⟨hall.mode_eq, hall.numShards_eq, hall.seed_eq, ?_⟩
    refine (planner.peerState_cancelInFlight p q entry.idx).trans ?_
    rw [if_neg hq, hall.peerState_eq, if_neg hq]
  | @dispatched entry planner payload hal hentry helig hall hchunk =>
    exact ⟨hall.mode_eq, hall.numShards_eq, hall.seed_eq, (hall.peerState_eq q).trans (if_neg hq)⟩

/-- A pick keeps the heap ranked. -/
theorem PollStep.heapRanked (h : PollStep p s s') (hs : s.planner.HeapRanked) : s'.planner.HeapRanked := by
  have hranked := hs.allocate p
  cases h with
  | idle hal hsame =>
    rw [hal] at hranked
    exact hranked
  | cancelled hal hentry helig hall hchunk =>
    rw [hal] at hranked
    exact hranked.congr rfl rfl rfl rfl
  | dispatched hal hentry helig hall hchunk =>
    rw [hal] at hranked
    exact hranked

theorem PollStep.chunks_eq (h : PollStep p s s') : s'.chunks = s.chunks := by
  cases h <;> rfl

/-- A turn that dispatches takes the next handle, any other none. -/
theorem PollStep.handles (h : PollStep p s s') :
    s'.nextHandle = s.nextHandle
        + UInt64.ofNat (if (s.planner.allocate p).1.any (fun idx => (s.chunkAt idx).isSome) then 1 else 0)
    ∧ ∀ k ∈ s'.inFlight, k ∈ s.inFlight
      ∨ k = s.nextHandle ∧ (s.planner.allocate p).1.any (fun idx => (s.chunkAt idx).isSome) := by
  cases h with
  | idle hal hsame =>
    rw [hal]
    exact ⟨(UInt64.add_zero _).symm, fun _ => .inl⟩
  | cancelled hal hentry helig hall hchunk =>
    rw [hal, Option.any_some, hchunk]
    exact ⟨(UInt64.add_zero _).symm, fun _ => .inl⟩
  | dispatched hal hentry helig hall hchunk =>
    rw [hal, Option.any_some, hchunk]
    refine ⟨rfl, fun k hk => ?_⟩
    rcases ExtTreeMap.mem_insert.mp hk with heq | hk
    · exact .inr ⟨(compare_eq_iff_eq.mp heq).symm, rfl⟩
    · exact .inl hk

/-! ## After some of the turns -/

/-- The strategy after the turns of these peers: they have raised the counts of the shards they fell on, the
other peers' havelists and flights are as before, and the turns that dispatched have taken a handle each. -/
structure Sofar (s : RsStrategy) (turn : PeerId → Option Nat) (before : List PeerId) (s₁ : RsStrategy) :
    Prop where
  ranked : s₁.planner.HeapRanked
  count_eq : ∀ i, s₁.planner.allocationCount i
    = (s.planner.allocationCount i + before.countP fun q => turn q = some i) % 2 ^ 32
  sameView : ∀ q ∉ before, EmitPlanner.SameView q s.planner s₁.planner
  chunks_eq : s₁.chunks = s.chunks
  nextHandle_eq : s₁.nextHandle = s.nextHandle + UInt64.ofNat (before.countP (s.serves turn))
  handles : ∀ k ∈ s₁.inFlight, k ∈ s.inFlight
    ∨ ∃ n < before.countP (s.serves turn), k = s.nextHandle + UInt64.ofNat n

/-- Before the first turn. -/
theorem Sofar.nil (h : s.planner.HeapRanked) (turn : PeerId → Option Nat) : Sofar s turn [] s where
  ranked := h
  count_eq i := (Nat.mod_eq_of_lt (s.planner.allocationCount_lt i)).symm
  sameView _ _ := ⟨rfl, rfl, rfl, rfl⟩
  chunks_eq := rfl
  nextHandle_eq := (UInt64.add_zero _).symm
  handles _ := .inl

theorem Sofar.chunkAt_eq (h : Sofar s turn before s₁) (idx : Nat) : s₁.chunkAt idx = s.chunkAt idx := by
  rw [chunkAt, chunkAt, h.chunks_eq]

/-- **The next turn** falls where it should. -/
theorem Sofar.turn_eq (h : Sofar s turn before s₁) {after : List PeerId}
    (hsorted : (before ++ p :: after).Pairwise (· < ·))
    (hturns : s.planner.Turns (before ++ p :: after) turn) : (s₁.planner.allocate p).1 = turn p := by
  have hfree : p ∉ before := fun hmem => by
    have hlt := (List.pairwise_append.mp hsorted).2.2 p hmem p List.mem_cons_self
    exact absurd hlt (UInt64.lt_irrefl p)
  have hcount : s₁.planner.allocationCount
      = EmitPlanner.countAtTurn s.planner.allocationCount (before ++ p :: after) turn p := by
    funext i
    rw [h.count_eq, EmitPlanner.countAtTurn_of_sorted hsorted]
  have hfalls := h.ranked.fallsOn p
  rw [(h.sameView p hfree).fallsOn_iff, hcount] at hfalls
  exact hfalls.unique (hturns p (List.mem_append_right before List.mem_cons_self))

/-- The strategy after one turn more. -/
theorem Sofar.next (h : Sofar s turn before s₁) (hfalls : (s₁.planner.allocate p).1 = turn p)
    (hstep : PollStep p s₁ s₂) : Sofar s turn (before ++ [p]) s₂ := by
  have hserves : (s₁.planner.allocate p).1.any (fun idx => (s₁.chunkAt idx).isSome) = s.serves turn p := by
    rw [hfalls, serves]
    simp only [h.chunkAt_eq]
  obtain ⟨hnext, hhandles⟩ := hstep.handles
  rw [hserves] at hnext hhandles
  refine ⟨hstep.heapRanked h.ranked, fun i => ?_, fun q hq => ?_, hstep.chunks_eq.trans h.chunks_eq, ?_,
    fun k hk => ?_⟩
  · rw [hstep.allocationCount_eq, hfalls, h.count_eq, List.countP_append, List.countP_singleton]
    by_cases hi : turn p = some i
    · simp only [hi, if_true, decide_true]
      omega
    · simp only [hi, if_false, decide_false, Bool.false_eq_true]
      omega
  · have hne : p ≠ q := fun heq => hq (List.mem_append_right before (List.mem_singleton.mpr heq.symm))
    exact (h.sameView q fun hmem => hq (List.mem_append_left _ hmem)).trans (hstep.sameView hne)
  · rw [hnext, h.nextHandle_eq, List.countP_append, List.countP_singleton, UInt64.ofNat_add, UInt64.add_assoc]
  · rw [List.countP_append, List.countP_singleton]
    rcases hhandles k hk with hold | ⟨rfl, hdispatches⟩
    · refine (h.handles k hold).imp_right fun ⟨n, hn, heq⟩ => ⟨n, ?_, heq⟩
      omega
    · exact .inr ⟨before.countP (s.serves turn), by simp [hdispatches], h.nextHandle_eq⟩

/-- **A poll goes by its turns**: what each of them keeps, in the state it finds, the poll keeps. -/
theorem pollPeers_turns {P : List PeerId → List (ChunkDispatch Nat) → RsStrategy → Prop}
    (hranked : s.planner.HeapRanked) (hsorted : peers.Pairwise (· < ·)) (hturns : s.planner.Turns peers turn)
    (hstep : ∀ before p ds s₁, before ++ [p] <+: peers → Sofar s turn before s₁ →
      (s₁.planner.allocate p).1 = turn p → P before ds s₁ →
      P (before ++ [p]) (ds ++ (pollPeers [p] s₁).1) (pollPeers [p] s₁).2)
    (hs : P [] [] s) : P peers (pollPeers peers s).1 (pollPeers peers s).2 := by
  suffices hpre : ∀ before after, before ++ after = peers →
      Sofar s turn before (pollPeers before s).2 ∧ P before (pollPeers before s).1 (pollPeers before s).2 from
    (hpre peers [] (List.append_nil peers)).2
  intro before
  induction before using List.reverseRecOn with
  | nil => exact fun _ _ => ⟨.nil hranked turn, hs⟩
  | append_singleton before p ih =>
    intro after hpeers
    rw [List.append_assoc, List.singleton_append] at hpeers
    obtain ⟨hsofar, hP⟩ := ih (p :: after) hpeers
    have hfalls := hsofar.turn_eq (hpeers ▸ hsorted) (hpeers ▸ hturns)
    rw [pollPeers_append]
    refine ⟨hsofar.next hfalls (pollPeers_one p _).1, hstep before p _ _ ⟨after, ?_⟩ hsofar hfalls hP⟩
    rw [List.append_assoc, List.singleton_append, hpeers]

/-- The peers of a poll come in the order of their ids. -/
theorem attachedPeers_sorted (s : RsStrategy) : s.attachedPeers.toList.Pairwise (· < ·) :=
  s.attachedPeers.ordered_toList.imp fun h => compareOfLessAndEq_eq_lt.mp h

/-- There are as many peers as ids at most. -/
theorem length_attachedPeers_le (s : RsStrategy) : s.attachedPeers.toList.length ≤ 2 ^ 64 := by
  have hcard : Fintype.card PeerId = 2 ^ 64 :=
    (Fintype.card_congr ⟨UInt64.toFin, UInt64.ofFin, fun _ => rfl, fun _ => rfl⟩).trans (Fintype.card_fin _)
  exact hcard ▸ s.attachedPeers.length_toList_le_card

theorem exists_turns (s : RsStrategy) : ∃ turn, s.Turns turn := s.planner.exists_turns s.attachedPeers_sorted

/-- A turn of a poll finds the counts that `countAtTurn` says. -/
theorem Sofar.count_at_turn {before : List PeerId} (h : Sofar s turn before s₁)
    (hpre : before ++ [p] <+: s.attachedPeers.toList) (i : Nat) :
    s₁.planner.allocationCount i = s.countAtTurn turn p i := by
  obtain ⟨after, hafter⟩ := hpre
  rw [List.append_assoc, List.singleton_append] at hafter
  have hsorted := s.attachedPeers_sorted
  rw [← hafter] at hsorted
  rw [h.count_eq, RsStrategy.countAtTurn, ← hafter, EmitPlanner.countAtTurn_of_sorted hsorted]

/-- **When a poll is empty**: every turn falls on a shard that the strategy lacks, or on none. -/
theorem pollChunks_nil_iff_turns (hranked : s.planner.HeapRanked) (hturns : s.Turns turn) :
    s.pollChunks.1 = [] ↔ ∀ p ∈ s.attachedPeers, ∀ idx ∈ turn p, s.chunkAt idx = none := by
  have hpoll := pollPeers_turns hranked s.attachedPeers_sorted hturns
    (P := fun before ds _ => ds = [] ↔ ∀ q ∈ before, ∀ idx ∈ turn q, s.chunkAt idx = none)
    (fun before p ds s₁ _ hsofar hfalls hP => ?_) (by simp)
  · simp only [ExtTreeSet.mem_toList] at hpoll
    exact hpoll
  · rw [List.append_eq_nil_iff, (pollPeers_one p s₁).2, hfalls, hP, List.forall_mem_append]
    simp only [hsofar.chunkAt_eq, List.forall_mem_singleton]

/-! ## The operations of the planner -/

section Operations

variable [Crates]

/-- **A strategy reaches its planner through the planner's operations.** -/
theorem applyOp_planner (s : RsStrategy) (op : StrategyOp) :
    ∃ ops, (s.applyOp op).planner = s.planner.runOps ops := by
  -- what each operation asks of the planner, in the order it asks
  cases op with
  | take idx data =>
    obtain ⟨chunks, hchunks⟩ := s.takeChunk_eq idx data
    rw [applyOp, hchunks]
    exact ⟨[], rfl⟩
  | attach peer => exact ⟨[], rfl⟩
  | detach peer completed => exact ⟨[.removePeer peer], rfl⟩
  | routing peer update => exact ⟨[.setPeerHavelist peer _], rfl⟩
  | pollChunks =>
    refine pollPeers_induct (P := fun s' => ∃ ops, s'.planner = s.planner.runOps ops) _ ?_ ⟨[], rfl⟩
    rintro p - s₁ s₂ hstep ⟨ops, hops⟩
    have hrun : ∀ more, s₁.planner.runOps more = s.planner.runOps (ops ++ more) := fun more => by
      rw [hops, EmitPlanner.runOps, EmitPlanner.runOps, EmitPlanner.runOps, List.foldl_append]
    cases hstep with
    | @idle planner hal hsame =>
      refine ⟨ops ++ [.allocate p], ?_⟩
      rw [← hrun]
      exact (congrArg Prod.snd hal).symm
    | @cancelled entry planner hal hentry helig hall hchunk =>
      refine ⟨ops ++ [.allocate p, .cancelInFlight p entry.idx], ?_⟩
      rw [← hrun]
      exact (congrArg (fun result => result.2.cancelInFlight p entry.idx) hal).symm
    | @dispatched entry planner payload hal hentry helig hall hchunk =>
      refine ⟨ops ++ [.allocate p], ?_⟩
      rw [← hrun]
      exact (congrArg Prod.snd hal).symm
  | pollRouting force =>
    rw [applyOp]
    rcases s.pollRouting_cases force with hr | hr <;> rw [hr] <;> exact ⟨[], rfl⟩
  | sent peer handle ok =>
    show ∃ ops, (s.chunkSent peer handle ok).planner = _
    cases hk : s.inFlight[handle]? with
    | none =>
      rw [chunkSent_of_not_flying hk]
      exact ⟨[], rfl⟩
    | some v =>
      rw [chunkSent_of_flying hk]
      cases ok with
      | true => exact ⟨[.recordSent peer v.2], rfl⟩
      | false => exact ⟨[.cancelInFlight peer v.2, .refundAllocation v.2], rfl⟩

theorem applyOp_heapRanked (h : s.planner.HeapRanked) (op : StrategyOp) :
    (s.applyOp op).planner.HeapRanked := by
  obtain ⟨ops, hops⟩ := s.applyOp_planner op
  rw [hops]
  exact h.runOps ops

omit [Crates] in
theorem Fresh.heapRanked (h : s.Fresh) : s.planner.HeapRanked := by
  obtain ⟨config, preamble, chunks, n, seed, mode, rfl⟩ := h
  exact EmitPlanner.new_heapRanked n seed mode

end Operations

end RsStrategy

end Ethp2p
