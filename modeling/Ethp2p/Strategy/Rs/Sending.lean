/-
# Ethp2p.Strategy.Rs.Sending — the polls of an origin none of whose dispatches is resolved yet.

`drain_session` polls until a poll comes back empty, and no acknowledgement can come in between.  `Sending`
says what the origin is like on the way: every dispatch so far (`log`) is in flight, no (peer, shard) was
dispatched twice, and the handles count up from zero.  A poll keeps that, and an empty poll means that every
peer was dispatched every shard.
-/
import Ethp2p.Strategy.Rs.Origin

namespace Ethp2p

open Std

/-- The peer and the shard of a dispatch. -/
def ChunkDispatch.target (d : ChunkDispatch Nat) : PeerId × Nat := (d.peer, d.chunkId)

/-- A 64-bit counter does not repeat itself before `2^64` values, and then it does. -/
theorem nodup_map_ofNat_iff (n : Nat) : ((List.range n).map UInt64.ofNat).Nodup ↔ n ≤ 2 ^ 64 := by
  constructor
  · intro hnodup
    have hcard : Fintype.card UInt64 = 2 ^ 64 :=
      (Fintype.card_congr ⟨UInt64.toFin, UInt64.ofFin, fun _ => rfl, fun _ => rfl⟩).trans
        (Fintype.card_fin _)
    have hle := hnodup.length_le_card
    rwa [hcard, List.length_map, List.length_range] at hle
  · intro hle
    refine (List.nodup_range).map_on fun i hi j hj hij => ?_
    have hi := List.mem_range.mp hi
    have hj := List.mem_range.mp hj
    have hmod := congrArg UInt64.toNat hij
    rwa [UInt64.toNat_ofNat', UInt64.toNat_ofNat', Nat.mod_eq_of_lt (by omega),
      Nat.mod_eq_of_lt (by omega)] at hmod

namespace RsStrategy

/-- An origin of these shards with these peers attached, all of whose dispatches are in flight. -/
structure Sending (s : RsStrategy) (shards : List Bytes) (peers : List PeerId)
    (log : List (ChunkDispatch Nat)) : Prop where
  whole : s.Whole shards
  uncapped : s.planner.mode = .origin
  attached_eq : s.attachedPeers.toList = peers
  unaware : ∀ p, (s.planner.peerState p).optimisticHavelist = none
  flying_iff : ∀ p idx, idx ∈ s.planner.inFlightTo p ↔ (p, idx) ∈ log.map ChunkDispatch.target
  nodup : (log.map ChunkDispatch.target).Nodup
  peer_mem : ∀ d ∈ log, d.peer ∈ peers
  backed : ∀ d ∈ log, shards[d.chunkId]? = some d.payload
  handles_eq : log.map ChunkDispatch.handle = (List.range log.length).map UInt64.ofNat
  nextHandle_eq : s.nextHandle = UInt64.ofNat log.length

variable {s s' : RsStrategy} {shards : List Bytes} {peers : List PeerId} {log : List (ChunkDispatch Nat)}
  {p : PeerId} {idx : Nat}

namespace Sending

/-- A search that finds nothing changes nothing that matters. -/
theorem searched (h : s.Sending shards peers log) {planner : EmitPlanner}
    (hsame : EmitPlanner.SameCounts s.planner planner) (hheap : planner.HeapRanked) :
    Sending { s with planner } shards peers log := by
  refine { h with
    whole := ⟨h.whole.chunks_eq, hsame.numShards_eq.trans h.whole.numShards_eq, hheap⟩
    uncapped := hsame.mode_eq.trans h.uncapped
    unaware := fun p => ?_
    flying_iff := fun p idx => ?_ }
  · rw [hsame.peerState_eq]
    exact h.unaware p
  · rw [← h.flying_iff, EmitPlanner.inFlightTo, hsame.peerState_eq]
    rfl

/-- A dispatch joins the log. -/
theorem dispatched (h : s.Sending shards peers log) {planner : EmitPlanner} {payload : Bytes}
    (hall : EmitPlanner.Allocated p idx s.planner planner) (hheap : planner.HeapRanked)
    (hp : p ∈ peers) (hfree : idx ∉ s.planner.inFlightTo p) (hchunk : s.chunkAt idx = some payload) :
    (s.dispatched planner p idx).Sending shards peers (log ++ [⟨p, idx, s.nextHandle, payload⟩]) := by
  -- what flies to `p` is what was logged for `p`, so this target is new
  have hfresh : (p, idx) ∉ log.map ChunkDispatch.target := (h.flying_iff p idx).not.mp hfree
  refine {
    whole := ⟨h.whole.chunks_eq, hall.numShards_eq.trans h.whole.numShards_eq, hheap⟩
    uncapped := hall.mode_eq.trans h.uncapped
    attached_eq := h.attached_eq
    unaware := fun q => ?_
    flying_iff := fun q i => ?_
    nodup := ?_
    peer_mem := fun d hd => ?_
    backed := fun d hd => ?_
    handles_eq := ?_
    nextHandle_eq := ?_ }
  · show (planner.peerState q).optimisticHavelist = none
    rw [hall.peerState_eq]
    split
    · exact h.unaware p
    · exact h.unaware q
  · show i ∈ (planner.peerState q).inFlight ↔ _
    rw [hall.peerState_eq, List.map_append, List.mem_append, ← h.flying_iff]
    split
    case isTrue hq =>
      subst hq
      rw [BTreeSet.mem_insert_iff]
      simp only [List.map_cons, List.map_nil, List.mem_singleton, ChunkDispatch.target, Prod.mk.injEq,
        true_and, eq_comm (a := i)]
      exact Or.comm
    case isFalse hq =>
      simp only [List.map_cons, List.map_nil, List.mem_singleton, ChunkDispatch.target, Prod.mk.injEq,
        Ne.symm hq, false_and, or_false]
      rfl
  · rw [List.map_append]
    exact h.nodup.append (List.nodup_singleton _) (by simpa [ChunkDispatch.target] using hfresh)
  · rcases List.mem_append.mp hd with hd | hd
    · exact h.peer_mem d hd
    · obtain rfl := List.mem_singleton.mp hd
      exact hp
  · rcases List.mem_append.mp hd with hd | hd
    · exact h.backed d hd
    · obtain rfl := List.mem_singleton.mp hd
      exact h.whole.chunkAt_eq idx ▸ hchunk
  · rw [List.map_append, h.handles_eq, List.length_append, List.length_singleton, List.range_succ,
      List.map_append, List.map_singleton, List.map_singleton, h.nextHandle_eq]
  · show s.nextHandle + 1 = _
    rw [h.nextHandle_eq, List.length_append, List.length_singleton, UInt64.ofNat_add]
    rfl

/-- The turns of a poll. -/
theorem pollPeers (h : s.Sending shards peers log) (turns : List PeerId)
    (hturns : ∀ q ∈ turns, q ∈ peers) :
    (pollPeers turns s).2.Sending shards peers (log ++ (RsStrategy.pollPeers turns s).1) := by
  induction turns generalizing s log with
  | nil => simpa [RsStrategy.pollPeers] using h
  | cons p turns ih =>
    have hrest : ∀ q ∈ turns, q ∈ peers := fun q hq => hturns q (List.mem_cons_of_mem p hq)
    have hheap := h.whole.heap.allocate p
    rcases s.planner.allocate_cases p with
      ⟨planner, hal, hsame, -⟩ | ⟨entry, planner, hal, hentry, helig, hall⟩ <;> rw [hal] at hheap
    · rw [pollPeers_idle hal]
      exact ih (h.searched hsame hheap) hrest
    · have hlt := h.whole.numShards_eq ▸ h.whole.heap.within entry hentry
      obtain ⟨payload, hchunk⟩ := Option.isSome_iff_exists.mp (h.whole.held_iff.mpr hlt)
      have hnext := ih (h.dispatched hall hheap (hturns p List.mem_cons_self) helig.not_flying hchunk) hrest
      rw [pollPeers_dispatch hal hchunk]
      rwa [List.append_assoc, List.singleton_append] at hnext

/-- A poll sends its batch. -/
theorem pollChunks (h : s.Sending shards peers log) :
    s.pollChunks.2.Sending shards peers (log ++ s.pollChunks.1) :=
  h.pollPeers _ fun _ hq => h.attached_eq ▸ hq

theorem pollRouting (h : s.Sending shards peers log) :
    (s.pollRouting false).2.Sending shards peers log := by
  rcases s.pollRouting_cases false with hr | hr <;> rw [hr]
  · exact h
  · exact { h with whole := ⟨h.whole.chunks_eq, h.whole.numShards_eq, h.whole.heap⟩ }

/-- **An empty poll: every peer was dispatched every shard.** -/
theorem complete (h : s.Sending shards peers log) (hnil : s.pollChunks.1 = []) (hp : p ∈ peers)
    (hidx : idx < shards.length) : (p, idx) ∈ log.map ChunkDispatch.target := by
  by_contra hmissing
  have hattached : p ∈ s.attachedPeers := ExtTreeSet.mem_toList.mp (h.attached_eq ▸ hp)
  refine h.whole.poll_complete hnil hattached idx
    ⟨h.whole.held_iff.mpr hidx, fun b hb => ?_, (h.flying_iff p idx).not.mpr hmissing, fun cap hcap => ?_⟩
  · rw [h.unaware] at hb
    cases hb
  · rw [EmitPlanner.cap, h.uncapped] at hcap
    cases hcap

/-- There are no more dispatches than pairs of a peer and a shard. -/
theorem length_le (h : s.Sending shards peers log) : log.length ≤ shards.length * peers.length := by
  have hsub : log.map ChunkDispatch.target ⊆ peers ×ˢ List.range shards.length := by
    intro x hx
    obtain ⟨d, hd, rfl⟩ := List.mem_map.mp hx
    refine List.mem_product.mpr ⟨h.peer_mem d hd, List.mem_range.mpr ?_⟩
    exact (List.getElem?_eq_some_iff.mp (h.backed d hd)).1
  have hle := (h.nodup.subperm hsub).length_le
  rwa [List.length_map, List.length_product, List.length_range, Nat.mul_comm] at hle

/-- The dispatches to one peer are of different shards. -/
theorem chunkIds_nodup (h : s.Sending shards peers log) (p : PeerId) :
    ((log.filter (·.peer = p)).map ChunkDispatch.chunkId).Nodup := by
  have htargets : (log.filter (·.peer = p)).map ChunkDispatch.target
      = ((log.filter (·.peer = p)).map ChunkDispatch.chunkId).map (p, ·) := by
    rw [List.map_map]
    refine List.map_congr_left fun d hd => ?_
    have hpeer : d.peer = p := by simpa using (List.mem_filter.mp hd).2
    simp [ChunkDispatch.target, hpeer]
  have hnodup := h.nodup.sublist
    ((List.filter_sublist (p := fun d : ChunkDispatch Nat => d.peer = p)).map ChunkDispatch.target)
  rw [htargets] at hnodup
  exact hnodup.of_map

/-- **What a peer was dispatched when a poll came back empty**: each shard once. -/
theorem perm_of_nil (h : s.Sending shards peers log) (hnil : s.pollChunks.1 = []) (hp : p ∈ peers) :
    ((log.filter (·.peer = p)).map fun d => (d.chunkId, some d.payload)).Perm
      ((List.range shards.length).map fun idx => (idx, shards[idx]?)) := by
  have hids : ((log.filter (·.peer = p)).map ChunkDispatch.chunkId).Perm (List.range shards.length) := by
    refine (List.perm_ext_iff_of_nodup (h.chunkIds_nodup p) List.nodup_range).mpr fun idx => ?_
    rw [List.mem_range, List.mem_map]
    constructor
    · rintro ⟨d, hd, rfl⟩
      exact (List.getElem?_eq_some_iff.mp (h.backed d (List.mem_filter.mp hd).1)).1
    · intro hidx
      obtain ⟨d, hd, htarget⟩ := List.mem_map.mp (h.complete hnil hp hidx)
      obtain ⟨hpeer, hchunk⟩ := Prod.mk.inj htarget
      exact ⟨d, List.mem_filter.mpr ⟨hd, by simpa using hpeer⟩, hchunk⟩
  have hpairs : (log.filter (·.peer = p)).map (fun d => (d.chunkId, some d.payload))
      = ((log.filter (·.peer = p)).map ChunkDispatch.chunkId).map fun idx => (idx, shards[idx]?) := by
    rw [List.map_map]
    refine List.map_congr_left fun d hd => ?_
    rw [Function.comp_apply, h.backed d (List.mem_filter.mp hd).1]
  rw [hpairs]
  exact hids.map _

/-- **An empty poll: as many dispatches as pairs of a peer and a shard.** -/
theorem length_of_nil (h : s.Sending shards peers log) (hnil : s.pollChunks.1 = [])
    (hpeers : peers.Nodup) : log.length = shards.length * peers.length := by
  refine Nat.le_antisymm h.length_le ?_
  have hsub : peers ×ˢ List.range shards.length ⊆ log.map ChunkDispatch.target := by
    rintro ⟨p, idx⟩ hx
    obtain ⟨hp, hidx⟩ := List.mem_product.mp hx
    exact h.complete hnil hp (List.mem_range.mp hidx)
  have hle := ((hpeers.product List.nodup_range).subperm hsub).length_le
  rwa [List.length_product, List.length_range, List.length_map, Nat.mul_comm] at hle

/-- The handles are distinct exactly when there are no more than a 64-bit counter has values. -/
theorem handles_nodup_iff (h : s.Sending shards peers log) :
    (log.map ChunkDispatch.handle).Nodup ↔ log.length ≤ 2 ^ 64 := by
  rw [h.handles_eq, nodup_map_ofNat_iff]

end Sending

/-! ## The start -/

/-- The strategy with these peers attached. -/
def attachEach (peers : List PeerId) (s : RsStrategy) : RsStrategy := peers.foldl attachPeer s

/-- Attaching peers changes the attached peers. -/
theorem attachEach_eq (peers : List PeerId) (s : RsStrategy) :
    ∃ attachedPeers, attachEach peers s = { s with attachedPeers }
      ∧ ∀ p, p ∈ attachedPeers ↔ p ∈ peers ∨ p ∈ s.attachedPeers := by
  induction peers generalizing s with
  | nil => exact ⟨s.attachedPeers, rfl, by simp⟩
  | cons p peers ih =>
    obtain ⟨attachedPeers, heq, hmem⟩ := ih (s.attachPeer p)
    refine ⟨attachedPeers, heq, fun q => ?_⟩
    rw [hmem, List.mem_cons, attachPeer, BTreeSet.mem_insert_iff, eq_comm (a := p)]
    tauto

/-- A fresh origin to which a channel's subscribers are attached has dispatched nothing. -/
theorem sending_start [Crates] (hrs : RsCorrect) {payload : Bytes} {config : RsConfig} {seed : UInt64}
    (hs : newOriginWithSeed payload config seed = .ok s) (subscribers : BTreeSet PeerId) :
    ∃ shards, (attachEach subscribers.toList s).Sending shards subscribers.toList []
      ∧ s.totalShards = shards.length ∧ ∀ idx, s.chunkAt idx = shards[idx]? := by
  obtain ⟨shards, k, m, chunkLen, henc, hparts, hwhole⟩ := newOriginWithSeed_ok hrs hs
  obtain ⟨attachedPeers, heq, hmem⟩ := attachEach_eq subscribers.toList s
  -- a new origin knows no peer: the attached ones are the subscribers
  have hattached : attachedPeers = subscribers := by
    refine ExtTreeSet.ext_mem fun p => ?_
    rw [hmem, ExtTreeSet.mem_toList, hparts, withParts]
    simp
  have hstate : ∀ p, s.planner.peerState p = default := fun p => by
    rw [hparts]
    simp [withParts, EmitPlanner.peerState, EmitPlanner.new]
  have htotal : s.totalShards = shards.length := by
    have hbounds := henc.shape_bounds hrs
    have hsum := toInt_add_of_lt henc.numData henc.numParity (by omega)
    rw [totalShards, totalOf, henc.length_shards hrs]
    exact asU32_of_toInt (by omega) hsum
  refine ⟨shards, ?_, htotal, hwhole.chunkAt_eq⟩
  rw [heq, hattached]
  exact {
    whole := ⟨hwhole.chunks_eq, hwhole.numShards_eq, hwhole.heap⟩
    uncapped := by rw [hparts]; rfl
    attached_eq := rfl
    unaware := fun p => by rw [hstate]; rfl
    flying_iff := fun p idx => by
      rw [EmitPlanner.inFlightTo, hstate]
      exact iff_of_false ExtTreeSet.not_mem_empty (by simp)
    nodup := List.nodup_nil
    peer_mem := by simp
    backed := by simp
    handles_eq := rfl
    nextHandle_eq := by rw [hparts]; rfl }

/-! ## Routing -/

/-- The routing update stands: another one is not due before the store changes. -/
def Announced (s : RsStrategy) : Prop := s.lastRoutingEmittedCount = s.localHavelist.countOnes

/-- What was announced is not announced again. -/
theorem Announced.quiet (h : s.Announced) : s.pollRouting false = (none, s) := by
  unfold pollRouting
  unfold Announced at h
  simp [h]

/-- What was said is announced. -/
theorem announced_of_pollRouting {b : BitMap} (h : (s.pollRouting false).1 = some b) :
    (s.pollRouting false).2.Announced := by
  rcases s.pollRouting_cases false with hr | hr
  · rw [hr] at h
    cases h
  · rw [hr]
    rfl

/-- A poll has nothing new to announce. -/
theorem Announced.pollChunks (h : s.Announced) : s.pollChunks.2.Announced := by
  have hspec := s.pollChunks_spec
  have hhave : s.pollChunks.2.localHavelist = s.localHavelist := by
    rw [localHavelist, localHavelist, hspec.sameStore.chunks_eq, hspec.sameStore.totalShards_eq]
  rw [Announced, hspec.lastRouting_eq, hhave]
  exact h

end RsStrategy

end Ethp2p
