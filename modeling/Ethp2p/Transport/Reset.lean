/-
# Ethp2p.Transport.Reset — the messages a node has reconstructed (`ethp2p-transport/src/lib.rs`).

When the engine has reconstructed a message, the transport remembers it, so that every inbound session
stream of that message is told to stop, also one that comes later.  What is remembered is bounded: the oldest
key is evicted for a new one, by a loop over a queue beside a set.  Set and queue hold the same keys, those of
a `FifoSet`, and so a key that a reader waits for is there when the reader is woken, and goes only when
`maxReconstructedTracked` others have come (`record_tracked`).
-/
import Ethp2p.Lib.FifoSet
import Ethp2p.Session

namespace Ethp2p

/-- Upper bound on reconstructed-session keys tracked for the reset. -/
def maxReconstructedTracked : Nat := 8192

/-- Insertion-ordered bounded set of reconstructed keys. -/
structure ReconstructedTracker where
  set : Finset (ChannelId × MessageId) := ∅
  order : List (ChannelId × MessageId) := []

/-- Evict oldest-first, as long as there are too many. -/
def ReconstructedTracker.evict (set : Finset (ChannelId × MessageId)) :
    List (ChannelId × MessageId) → ReconstructedTracker
  | [] => { set := set, order := [] }
  | old :: order =>
    if (old :: order).length > maxReconstructedTracked then
      evict (set.erase old) order
    else
      { set := set, order := old :: order }

/-- Shared reconstruct-reset state. -/
structure ResetState where
  reconstructed : ReconstructedTracker := {}

namespace ResetState

variable {key : ChannelId × MessageId} {keys : List (ChannelId × MessageId)} {reset : ResetState}

/-- Record a reconstructed session. -/
def record (reset : ResetState) (key : ChannelId × MessageId) : ResetState :=
  let t := reset.reconstructed
  if key ∈ t.set then
    reset
  else
    { reconstructed := ReconstructedTracker.evict (insert key t.set) (t.order ++ [key]) }

/-- The session is known to be reconstructed. -/
def isReconstructed (reset : ResetState) (key : ChannelId × MessageId) : Bool :=
  decide (key ∈ reset.reconstructed.set)

/-- Record one session after the other. -/
def recordAll (reset : ResetState) (keys : List (ChannelId × MessageId)) : ResetState :=
  keys.foldl record reset

/-- The sessions that were newly inserted when they were recorded. -/
def inserted (reset : ResetState) : List (ChannelId × MessageId) → List (ChannelId × MessageId)
  | [] => []
  | key :: keys =>
    if reset.isReconstructed key then
      inserted (reset.record key) keys
    else
      key :: inserted (reset.record key) keys

/-! ## Set and queue -/

/-- The tracker's queue has the keys of a bounded set of the last keys, and its set has the same ones. -/
structure Tracks (reset : ResetState) (known : FifoSet (ChannelId × MessageId) maxReconstructedTracked) :
    Prop where
  order : reset.reconstructed.order = known.keys
  set : reset.reconstructed.set = known.keys.toFinset

theorem evict_eq {order : List (ChannelId × MessageId)} (hnodup : order.Nodup) :
    ReconstructedTracker.evict order.toFinset order
      = { set := (order.drop (order.length - maxReconstructedTracked)).toFinset
          order := order.drop (order.length - maxReconstructedTracked) } := by
  induction order with
  | nil => rfl
  | cons old order ih =>
    obtain ⟨hold, hnodup⟩ := List.nodup_cons.mp hnodup
    rw [ReconstructedTracker.evict]
    split
    case isTrue hmany =>
      have hset : (old :: order).toFinset.erase old = order.toFinset := by
        rw [List.toFinset_cons, Finset.erase_insert (by rwa [List.mem_toFinset])]
      have hdrop : (old :: order).length - maxReconstructedTracked
          = order.length - maxReconstructedTracked + 1 := by
        rw [List.length_cons] at hmany ⊢
        omega
      rw [hset, ih hnodup, hdrop, List.drop_succ_cons]
    case isFalse hfew => rw [Nat.sub_eq_zero_of_le (Nat.le_of_not_lt hfew), List.drop_zero]

theorem new_tracks : Tracks {} FifoSet.empty := ⟨rfl, rfl⟩

section Tracks

variable {known : FifoSet (ChannelId × MessageId) maxReconstructedTracked}

theorem Tracks.isReconstructed_iff (h : Tracks reset known) :
    reset.isReconstructed key = true ↔ key ∈ known.keys := by
  rw [isReconstructed, decide_eq_true_iff, h.set, List.mem_toFinset]

/-- **Recording a session** is inserting its key. -/
theorem Tracks.record (h : Tracks reset known) (key : ChannelId × MessageId) :
    Tracks (reset.record key) (known.insert key) := by
  by_cases hknown : key ∈ known.keys
  · have hset : key ∈ reset.reconstructed.set := by rwa [h.set, List.mem_toFinset]
    rwa [FifoSet.insert_of_mem hknown, ResetState.record, if_pos hset]
  · have hset : key ∉ reset.reconstructed.set := by rwa [h.set, List.mem_toFinset]
    have hnodup := FifoSet.nodup_append hknown
    have hinsert : insert key reset.reconstructed.set = (known.keys ++ [key]).toFinset := by
      rw [h.set, List.toFinset_append, Finset.union_comm]
      rfl
    have hkeys := FifoSet.keys_insert_of_not_mem hknown
    rw [ResetState.record, if_neg hset, hinsert, h.order, evict_eq hnodup, ← hkeys]
    exact ⟨rfl, rfl⟩

theorem Tracks.recordAll (h : Tracks reset known) (keys : List (ChannelId × MessageId)) :
    Tracks (reset.recordAll keys) (known.insertAll keys) := by
  induction keys generalizing reset known with
  | nil => exact h
  | cons key keys ih => exact ih (h.record key)

theorem Tracks.inserted_eq (h : Tracks reset known) (keys : List (ChannelId × MessageId)) :
    reset.inserted keys = known.news keys := by
  induction keys generalizing reset known with
  | nil => rfl
  | cons key keys ih =>
    rw [inserted, FifoSet.news, ih (h.record key)]
    by_cases hknown : key ∈ known.keys
    · rw [if_pos hknown, if_pos (h.isReconstructed_iff.mpr hknown)]
    · rw [if_neg hknown, if_neg (mt h.isReconstructed_iff.mp hknown)]

end Tracks

/-! ## Runs -/

/-- **The tracked sessions.**  After any sequence of records, set and queue hold the same keys, each once and
not too many; a session is known as soon as it is recorded; and a session that was newly inserted stays known
until `maxReconstructedTracked` different others were newly inserted after it. -/
theorem record_tracked (keys : List (ChannelId × MessageId)) :
    let reset := recordAll {} keys
    reset.reconstructed.order.Nodup
    ∧ (∀ key, key ∈ reset.reconstructed.set ↔ key ∈ reset.reconstructed.order)
    ∧ reset.reconstructed.order.length ≤ maxReconstructedTracked
    ∧ (∀ key, (reset.record key).isReconstructed key = true)
    ∧ ∀ key, reset.isReconstructed key = false → ∀ later,
        ((reset.record key).recordAll later).isReconstructed key = false →
        maxReconstructedTracked ≤ (((reset.record key).inserted later).toFinset.erase key).card := by
  intro reset
  have htracks : Tracks reset (FifoSet.empty.insertAll keys) := new_tracks.recordAll keys
  refine ⟨?_, fun key => ?_, ?_, fun key => ?_, fun key hnew later hgone => ?_⟩
  · rw [htracks.order]
    exact (FifoSet.insertAll _ keys).nodup
  · rw [htracks.order, htracks.set, List.mem_toFinset]
  · rw [htracks.order]
    exact (FifoSet.insertAll _ keys).length_le
  · exact (htracks.record key).isReconstructed_iff.mpr (FifoSet.mem_insert_self (by decide) _ key)
  · have hrecorded := htracks.record key
    rw [← Bool.not_eq_true, htracks.isReconstructed_iff] at hnew
    rw [← Bool.not_eq_true, (hrecorded.recordAll later).isReconstructed_iff] at hgone
    rw [hrecorded.inserted_eq]
    exact FifoSet.capacity_le_news hnew later hgone

end ResetState

end Ethp2p
