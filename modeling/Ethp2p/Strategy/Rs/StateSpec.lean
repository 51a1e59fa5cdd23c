/-
# Ethp2p.Strategy.Rs.StateSpec — what each strategy operation changes.

One spec per operation of `RsStrategy`, stated on the fields, so that results about sessions and
engines never unfold the operations.  The poll is described by its batch of dispatches: it keeps the
chunk store and the attached peers, every dispatch carries a stored chunk to an attached peer, and the
handle map gains exactly the batch (`addFlights`), whose handles are consecutive and, there being at
most `2^64` peers, distinct.
-/
import Ethp2p.Strategy.Rs.PlannerSpec
import Ethp2p.Strategy.Rs.State

namespace Ethp2p

namespace RsStrategy

/-! ## Operations that leave the chunk store alone -/

/-- The fields no drain or peer operation ever touches. -/
structure SameStore (s s' : RsStrategy) : Prop where
  config_eq : s'.config = s.config
  preamble_eq : s'.preamble = s.preamble
  chunks_eq : s'.chunks = s.chunks

namespace SameStore

variable {s s' s'' : RsStrategy}

theorem refl (s : RsStrategy) : SameStore s s := ⟨rfl, rfl, rfl⟩

theorem trans (h : SameStore s s') (h' : SameStore s' s'') : SameStore s s'' :=
  ⟨h'.config_eq.trans h.config_eq, h'.preamble_eq.trans h.preamble_eq,
    h'.chunks_eq.trans h.chunks_eq⟩

/-- The same store holds the same shards. -/
theorem chunkAt_eq (h : SameStore s s') (i : Nat) : s'.chunkAt i = s.chunkAt i := by
  rw [chunkAt, chunkAt, h.chunks_eq]

theorem totalShards_eq (h : SameStore s s') : s'.totalShards = s.totalShards := by
  rw [totalShards, totalShards, h.preamble_eq]

end SameStore

/-- Peers come and go without touching the store. -/
theorem attachPeer_sameStore (s : RsStrategy) (p : PeerId) : SameStore s (s.attachPeer p) :=
  ⟨rfl, rfl, rfl⟩

theorem detachPeer_sameStore (s : RsStrategy) (p : PeerId) (b : Bool) :
    SameStore s (s.detachPeer p b) :=
  ⟨rfl, rfl, rfl⟩

/-- A result touches the planner and the flights only. -/
theorem chunkSent_sameStore (s : RsStrategy) (p : PeerId) (h : DispatchHandle) (ok : Bool) :
    SameStore s (s.chunkSent p h ok) := by
  unfold chunkSent
  split
  · exact .refl s
  · cases ok <;> exact ⟨rfl, rfl, rfl⟩

theorem chunkSent_attachedPeers (s : RsStrategy) (p : PeerId) (h : DispatchHandle) (ok : Bool) :
    (s.chunkSent p h ok).attachedPeers = s.attachedPeers := by
  unfold chunkSent
  split
  · rfl
  · cases ok <;> rfl

/-- A chunk changes the chunk store at most. -/
theorem takeChunk_eq [Crates] (s : RsStrategy) (idx : Nat) (data : Bytes) :
    ∃ chunks, (s.takeChunk idx data).2 = { s with chunks } := by
  unfold takeChunk
  split
  · exact ⟨_, rfl⟩
  split
  · exact ⟨_, rfl⟩
  cases Ethp2p.verifyChunk s.preamble idx data <;> exact ⟨_, rfl⟩

theorem chunkSent_nextHandle (s : RsStrategy) (p : PeerId) (h : DispatchHandle) (ok : Bool) :
    (s.chunkSent p h ok).nextHandle = s.nextHandle := by
  unfold chunkSent
  split
  · rfl
  · cases ok <;> rfl

/-- A callback removes its handle and no other. -/
theorem chunkSent_inFlight (s : RsStrategy) (p : PeerId) (h : DispatchHandle) (ok : Bool) :
    (s.chunkSent p h ok).inFlight = s.inFlight.erase h := by
  unfold chunkSent
  split
  case h_1 hnone =>
    refine Std.ExtTreeMap.ext_getElem? fun k => ?_
    rw [BTreeMap.get_erase]
    split
    case isTrue hk => rw [← hk, hnone]
    case isFalse => rfl
  case h_2 => cases ok <;> rfl

/-- A poll of the routing says nothing, or the local havelist, and remembers its count. -/
theorem pollRouting_cases (s : RsStrategy) (force : Bool) :
    s.pollRouting force = (none, s)
      ∨ s.pollRouting force = (some s.localHavelist,
          { s with lastRoutingEmittedCount := s.localHavelist.countOnes }) := by
  unfold pollRouting
  split
  · exact .inl rfl
  · dsimp only
    split
    · exact .inr rfl
    · exact .inl rfl

theorem pollRouting_planner (s : RsStrategy) (force : Bool) :
    (s.pollRouting force).2.planner = s.planner := by
  rcases s.pollRouting_cases force with h | h <;> rw [h]

/-! ## Polling -/

/-- The handle map with a batch of dispatches added. -/
def addFlights (f : BTreeMap DispatchHandle (PeerId × Nat)) (ds : List (ChunkDispatch Nat)) :
    BTreeMap DispatchHandle (PeerId × Nat) :=
  ds.foldl (fun f d => f.insert d.handle (d.peer, d.chunkId)) f

/-- A handle of the map after a batch is one of the batch's, or was there before. -/
theorem get_addFlights {f : BTreeMap DispatchHandle (PeerId × Nat)}
    {ds : List (ChunkDispatch Nat)} {h : DispatchHandle} {v : PeerId × Nat}
    (hv : (addFlights f ds)[h]? = some v) :
    (∃ d ∈ ds, d.handle = h ∧ (d.peer, d.chunkId) = v)
      ∨ ((∀ d ∈ ds, d.handle ≠ h) ∧ f[h]? = some v) := by
  induction ds generalizing f with
  | nil => exact .inr ⟨by simp, hv⟩
  | cons d ds ih =>
    rcases ih hv with ⟨d', hd', hh, hp⟩ | ⟨hne, hf⟩
    · exact .inl ⟨d', List.mem_cons_of_mem d hd', hh, hp⟩
    · rw [BTreeMap.get_insert] at hf
      split at hf
      case isTrue hh => exact .inl ⟨d, List.mem_cons_self, hh, Option.some.inj hf⟩
      case isFalse hh =>
        refine .inr ⟨fun d' hd' => ?_, hf⟩
        rcases List.mem_cons.mp hd' with rfl | hd'
        · exact hh
        · exact hne d' hd'

/-- With distinct handles every dispatch of a batch is in the map after it. -/
theorem get_addFlights_self {f : BTreeMap DispatchHandle (PeerId × Nat)}
    {ds : List (ChunkDispatch Nat)} (hnd : (ds.map (·.handle)).Nodup) {d : ChunkDispatch Nat}
    (hd : d ∈ ds) : (addFlights f ds)[d.handle]? = some (d.peer, d.chunkId) := by
  induction ds generalizing f with
  | nil => simp at hd
  | cons d' ds ih =>
    simp only [List.map_cons, List.nodup_cons, List.mem_map, not_exists, not_and] at hnd
    rcases List.mem_cons.mp hd with rfl | hd
    · have hkeep : ∀ (ds : List (ChunkDispatch Nat)) (f : BTreeMap DispatchHandle (PeerId × Nat)),
          (∀ d' ∈ ds, d'.handle ≠ d.handle) → (addFlights f ds)[d.handle]? = f[d.handle]? := by
        intro ds
        induction ds with
        | nil => exact fun _ _ => rfl
        | cons a ds ih =>
          intro f hne
          refine (ih _ fun d' hd' => hne d' (List.mem_cons_of_mem a hd')).trans ?_
          rw [BTreeMap.get_insert, if_neg (hne a List.mem_cons_self)]
      refine (hkeep ds _ hnd.1).trans ?_
      rw [BTreeMap.get_insert, if_pos rfl]
    · exact ih hnd.2 hd

/-- **One poll step per peer.**  The store, the attached peers and the routing memory are kept;
every dispatch carries a stored chunk to one of the peers; the handle map gains the batch; the
handles count on from `nextHandle`. -/
structure PollSpec (peers : List PeerId) (s : RsStrategy) (ds : List (ChunkDispatch Nat))
    (s' : RsStrategy) : Prop where
  sameStore : SameStore s s'
  attachedPeers_eq : s'.attachedPeers = s.attachedPeers
  lastRouting_eq : s'.lastRoutingEmittedCount = s.lastRoutingEmittedCount
  backed : ∀ d ∈ ds, s.chunkAt d.chunkId = some d.payload
  peers_sublist : (ds.map (·.peer)).Sublist peers
  inFlight_eq : s'.inFlight = addFlights s.inFlight ds
  handles_eq : ds.map (·.handle) = (List.range ds.length).map (s.nextHandle + UInt64.ofNat ·)
  nextHandle_eq : s'.nextHandle = s.nextHandle + UInt64.ofNat ds.length

/-- The planner has nothing for the peer. -/
theorem pollPeers_idle {p : PeerId} {peers : List PeerId} {s : RsStrategy} {planner : EmitPlanner}
    (h : s.planner.allocate p = (none, planner)) :
    pollPeers (p :: peers) s = pollPeers peers { s with planner } := by
  simp only [pollPeers, h]

/-- The planner hands out a shard that the strategy does not hold. -/
theorem pollPeers_cancel {p : PeerId} {peers : List PeerId} {s : RsStrategy}
    {planner : EmitPlanner} {idx : Nat} (h : s.planner.allocate p = (some idx, planner))
    (hc : s.chunkAt idx = none) :
    pollPeers (p :: peers) s
      = pollPeers peers { s with planner := planner.cancelInFlight p idx } := by
  simp only [pollPeers, h, hc]

/-- The strategy after it dispatched shard `idx` to `p`. -/
def dispatched (s : RsStrategy) (planner : EmitPlanner) (p : PeerId) (idx : Nat) : RsStrategy :=
  { s with
    planner
    nextHandle := s.nextHandle + 1
    inFlight := s.inFlight.insert s.nextHandle (p, idx) }

/-- The planner hands out a shard that the strategy holds. -/
theorem pollPeers_dispatch {p : PeerId} {peers : List PeerId} {s : RsStrategy}
    {planner : EmitPlanner} {idx : Nat} {payload : Bytes}
    (h : s.planner.allocate p = (some idx, planner)) (hc : s.chunkAt idx = some payload) :
    pollPeers (p :: peers) s
      = (⟨p, idx, s.nextHandle, payload⟩ :: (pollPeers peers (s.dispatched planner p idx)).1,
        (pollPeers peers (s.dispatched planner p idx)).2) := by
  simp only [pollPeers, h, hc]
  rfl

/-- **What a poll did**: its dispatches are in flight, with handles in a row, and nothing else has changed but
the planner. -/
theorem pollPeers_spec (peers : List PeerId) (s : RsStrategy) :
    PollSpec peers s (pollPeers peers s).1 (pollPeers peers s).2 := by
  -- one round of the poll for each peer: nothing due, a shard not held, a dispatch
  induction peers generalizing s with
  | nil =>
    exact ⟨.refl s, rfl, rfl, by simp [pollPeers], by simp [pollPeers], rfl, rfl, by simp [pollPeers]⟩
  | cons p peers ih =>
    rcases hal : s.planner.allocate p with ⟨_ | idx, planner⟩
    · rw [pollPeers_idle hal]
      have h := ih { s with planner }
      have h0 : SameStore s { s with planner } := ⟨rfl, rfl, rfl⟩
      exact ⟨h0.trans h.sameStore, h.attachedPeers_eq, h.lastRouting_eq, h.backed,
        h.peers_sublist.cons p, h.inFlight_eq, h.handles_eq, h.nextHandle_eq⟩
    · cases hchunk : s.chunkAt idx with
      | none =>
        rw [pollPeers_cancel hal hchunk]
        have h := ih { s with planner := planner.cancelInFlight p idx }
        have h0 : SameStore s { s with planner := planner.cancelInFlight p idx } := ⟨rfl, rfl, rfl⟩
        exact ⟨h0.trans h.sameStore, h.attachedPeers_eq, h.lastRouting_eq, h.backed,
          h.peers_sublist.cons p, h.inFlight_eq, h.handles_eq, h.nextHandle_eq⟩
      | some payload =>
        rw [pollPeers_dispatch hal hchunk]
        have h := ih (s.dispatched planner p idx)
        have h0 : SameStore s (s.dispatched planner p idx) := ⟨rfl, rfl, rfl⟩
        refine ⟨h0.trans h.sameStore, h.attachedPeers_eq, h.lastRouting_eq, ?_,
          h.peers_sublist.cons_cons p, h.inFlight_eq, ?_, ?_⟩
        · intro d hd
          rcases List.mem_cons.mp hd with rfl | hd
          · exact hchunk
          · exact h.backed d hd
        · rw [List.map_cons, h.handles_eq, List.length_cons, List.range_succ_eq_map]
          simp only [List.map_cons, List.map_map, List.cons.injEq]
          refine ⟨by simp, List.map_congr_left fun i _ => ?_⟩
          simp only [dispatched, Function.comp_apply, Nat.succ_eq_add_one, UInt64.ofNat_add]
          rw [UInt64.add_assoc, UInt64.add_comm 1]
          rfl
        · rw [h.nextHandle_eq, List.length_cons, UInt64.ofNat_add]
          simp only [dispatched]
          rw [UInt64.add_assoc, UInt64.add_comm 1]
          rfl

/-- A poll goes over the attached peers. -/
theorem pollChunks_spec (s : RsStrategy) :
    PollSpec s.attachedPeers.toList s s.pollChunks.1 s.pollChunks.2 :=
  pollPeers_spec _ s

/-- The peers of a poll's dispatches are attached. -/
theorem pollChunks_peer_mem {s : RsStrategy} {d : ChunkDispatch Nat} (hd : d ∈ s.pollChunks.1) :
    d.peer ∈ s.attachedPeers := by
  have hsub := s.pollChunks_spec.peers_sublist
  exact Std.ExtTreeSet.mem_toList.mp (hsub.subset (List.mem_map_of_mem hd))

/-- A batch has at most one dispatch per peer, so at most `2^64`: its handles are distinct. -/
theorem pollChunks_handles_nodup (s : RsStrategy) : (s.pollChunks.1.map (·.handle)).Nodup := by
  have hspec := s.pollChunks_spec
  have hlen : s.pollChunks.1.length ≤ 2 ^ 64 := by
    have h1 := hspec.peers_sublist.length_le
    have h2 := s.attachedPeers.length_toList_le_card
    have h3 : Fintype.card PeerId = 2 ^ 64 :=
      (Fintype.card_congr ⟨UInt64.toFin, UInt64.ofFin, fun _ => rfl, fun _ => rfl⟩).trans
        (Fintype.card_fin _)
    simp only [List.length_map] at h1
    omega
  rw [hspec.handles_eq]
  refine (List.nodup_range).map_on fun i hi j hj hij => ?_
  have hi' := List.mem_range.mp hi
  have hj' := List.mem_range.mp hj
  have hmod := congrArg UInt64.toNat (add_left_cancel hij)
  rw [UInt64.toNat_ofNat', UInt64.toNat_ofNat', Nat.mod_eq_of_lt (by omega),
    Nat.mod_eq_of_lt (by omega)] at hmod
  exact hmod

/-- The whole poll of a session: routing first, then chunks. -/
theorem poll_sameStore (s : RsStrategy) : SameStore s (s.pollRouting false).2.pollChunks.2 := by
  have h := (s.pollRouting false).2.pollChunks_spec.sameStore
  rcases s.pollRouting_cases false with hr | hr
  · rwa [hr] at h ⊢
  · rw [hr] at h ⊢
    exact ⟨h.config_eq, h.preamble_eq, h.chunks_eq⟩

/-! ## The planner's heap -/

/-- A poll leaves the heap sound. -/
theorem pollPeers_heapSound (peers : List PeerId) {s : RsStrategy} (h : s.planner.HeapSound) :
    (pollPeers peers s).2.planner.HeapSound := by
  induction peers generalizing s with
  | nil => exact h
  | cons p peers ih =>
    have hheap := h.allocate p
    rcases hal : s.planner.allocate p with ⟨_ | idx, planner⟩ <;> rw [hal] at hheap
    · rw [pollPeers_idle hal]
      exact ih hheap
    · cases hchunk : s.chunkAt idx with
      | none =>
        rw [pollPeers_cancel hal hchunk]
        exact ih (hheap.congr rfl rfl rfl)
      | some payload =>
        rw [pollPeers_dispatch hal hchunk]
        exact ih hheap

/-- A result leaves the heap sound. -/
theorem chunkSent_heapSound {s : RsStrategy} (h : s.planner.HeapSound) (p : PeerId)
    (handle : DispatchHandle) (ok : Bool) : (s.chunkSent p handle ok).planner.HeapSound := by
  unfold chunkSent
  split
  · exact h
  · cases ok
    · exact (h.congr rfl rfl rfl : (s.planner.cancelInFlight p _).HeapSound).refundAllocation _
    · exact h.congr rfl rfl rfl

end RsStrategy

end Ethp2p
