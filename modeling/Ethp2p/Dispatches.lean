/-
# Ethp2p.Dispatches — who resolves a dispatch.

A dispatch that `poll_chunks` hands out is in flight in the strategy until its one `chunk_sent`
callback.  The engine owes that callback: `drain_session` submits the whole batch, remembers each
accepted chunk in `pending_sends` and refunds each refused one.  `Tracked` is the invariant "everything
in flight is pending", together with what carries it (a peer in flight is attached, an attached peer is
a subscriber).

Between the poll and the last submission the batch is in flight and not pending yet; `TrackedBut`
is the invariant with the unsubmitted rest of the batch excepted.  A refused `SessionOpen` or
`RoutingUpdate` leaves `drain_session` at once and strands that rest, so the invariant holds of a run
exactly as far as rounds that polled a batch are not cut short (`RoundClean`).
-/
import Ethp2p.Engine.Sessions
import Ethp2p.Strategy.Rs.OneShard

namespace Ethp2p

open Std

/-! ## One session -/

/-- A session of a channel with these subscribers, seen from the pending sends: attached peers are
subscribers, peers in flight are attached, and every flight but those of the unsubmitted `batch` is
pending for its peer. -/
structure SessionTracked (batch : List (ChunkDispatch Nat)) (subs : BTreeSet PeerId)
    (pending : DispatchHandle → Option PeerId) (s : RsStrategy) : Prop where
  attached : ∀ p ∈ s.attachedPeers, p ∈ subs
  flying : ∀ (h : DispatchHandle) v, s.inFlight[h]? = some v → v.1 ∈ s.attachedPeers
  unsubmitted : ∀ d ∈ batch, s.inFlight[d.handle]? = some (d.peer, d.chunkId)
  resolved : ∀ (h : DispatchHandle) v, s.inFlight[h]? = some v → (∀ d ∈ batch, d.handle ≠ h) →
    pending h = some v.1

namespace SessionTracked

variable {batch : List (ChunkDispatch Nat)} {subs subs' : BTreeSet PeerId}
  {pending pending' : DispatchHandle → Option PeerId} {s s' : RsStrategy}

/-- Only the attached peers, the flights, the subscribers and the pending sends matter. -/
theorem congr (h : SessionTracked batch subs pending s) (hatt : s'.attachedPeers = s.attachedPeers)
    (hfl : s'.inFlight = s.inFlight) : SessionTracked batch subs pending s' := by
  obtain ⟨h1, h2, h3, h4⟩ := h
  exact ⟨by rwa [hatt], by rwa [hfl, hatt], by rwa [hfl], by rwa [hfl]⟩

/-- A peer that is attached is a subscriber by then. -/
theorem attachPeer (h : SessionTracked batch subs pending s) (p : PeerId) (hp : p ∈ subs')
    (hsubs : ∀ q ∈ subs, q ∈ subs') : SessionTracked batch subs' pending (s.attachPeer p) where
  attached q hq := by
    rcases (BTreeSet.mem_insert_iff _ _ _).mp hq with rfl | hq
    · exact hp
    · exact hsubs q (h.attached q hq)
  flying k v hv := (BTreeSet.mem_insert_iff _ _ _).mpr (.inr (h.flying k v hv))
  unsubmitted := h.unsubmitted
  resolved := h.resolved

/-- Detaching a peer removes its flights, so only the other peers' pending sends are needed. -/
theorem detachPeer (h : SessionTracked [] subs pending s) (p : PeerId) (completed : Bool)
    (hsubs : ∀ q ∈ subs, q ≠ p → q ∈ subs')
    (hpending : ∀ k q, pending k = some q → q ≠ p → pending' k = some q) :
    SessionTracked [] subs' pending' (s.detachPeer p completed) := by
  have hget : ∀ (k : DispatchHandle) v, (s.detachPeer p completed).inFlight[k]? = some v →
      s.inFlight[k]? = some v ∧ v.1 ≠ p := by
    intro k v hv
    have hv' : (s.inFlight.filter fun _ v => v.1 ≠ p)[k]? = some v := hv
    rw [ExtTreeMap.getElem?_filter', Option.filter_eq_some_iff] at hv'
    simpa using hv'
  refine ⟨fun q hq => ?_, fun k v hv => ?_, by simp, fun k v hv _ => ?_⟩
  · obtain ⟨hne, hq⟩ := (BTreeSet.mem_erase_iff _ _ _).mp hq
    exact hsubs q (h.attached q hq) (Ne.symm hne)
  · obtain ⟨hv, hne⟩ := hget k v hv
    exact (BTreeSet.mem_erase_iff _ _ _).mpr ⟨Ne.symm hne, h.flying k v hv⟩
  · obtain ⟨hv, hne⟩ := hget k v hv
    exact hpending k v.1 (h.resolved k v hv (by simp)) hne

/-- A channel loses a subscriber: its sessions lose the flights to that peer, and need only the
other peers' pending sends. -/
theorem unsubscribePeer [Crates] {ch : Channel RsStrategy} {p : PeerId} {m : MessageId}
    {s' : Session RsStrategy} (hs' : (ch.unsubscribePeer p).sessions[m]? = some s')
    (hpending : ∀ k q, pending k = some q → q ≠ p → pending' k = some q) :
    ∃ s, ch.sessions[m]? = some s ∧ (SessionTracked [] ch.subscribers pending s.strategy →
      SessionTracked [] (ch.unsubscribePeer p).subscribers pending' s'.strategy) := by
  unfold Channel.unsubscribePeer at hs' ⊢
  by_cases hp : p ∈ ch.subscribers
  · rw [if_pos hp] at hs' ⊢
    rw [ExtTreeMap.getElem?_map] at hs'
    obtain ⟨s, hs, rfl⟩ := Option.map_eq_some_iff.mp hs'
    refine ⟨s, hs, fun h => h.detachPeer p false (fun q hq hne => ?_) hpending⟩
    exact (BTreeSet.mem_erase_iff _ _ _).mpr ⟨Ne.symm hne, hq⟩
  · rw [if_neg hp] at hs' ⊢
    refine ⟨s', hs', fun h => ⟨h.attached, h.flying, h.unsubmitted, fun k v hv hne => ?_⟩⟩
    -- a flight to `p` would make `p` a subscriber
    refine hpending k v.1 (h.resolved k v hv hne) fun hvp => hp ?_
    exact hvp ▸ h.attached v.1 (h.flying k v hv)

/-- A callback ends a flight: its handle leaves the batch, and its pending entry is not needed. -/
theorem chunkSent {rest : List (ChunkDispatch Nat)} (h : SessionTracked batch subs pending s)
    (p : PeerId) (k : DispatchHandle) (ok : Bool)
    (hrest : ∀ d ∈ rest, d ∈ batch ∧ d.handle ≠ k)
    (hbatch : ∀ d ∈ batch, d.handle ≠ k → d ∈ rest)
    (hpending : ∀ k', k ≠ k' → pending' k' = pending k') :
    SessionTracked rest subs pending' (s.chunkSent p k ok) := by
  have hget : ∀ (k' : DispatchHandle) v, (s.chunkSent p k ok).inFlight[k']? = some v →
      k ≠ k' ∧ s.inFlight[k']? = some v := by
    intro k' v hv
    rw [s.chunkSent_inFlight, BTreeMap.get_erase] at hv
    split at hv
    · cases hv
    case isFalse hne => exact ⟨hne, hv⟩
  have hatt := s.chunkSent_attachedPeers p k ok
  refine ⟨by rw [hatt]; exact h.attached, fun k' v hv => ?_, fun d hd => ?_, fun k' v hv hne => ?_⟩
  · rw [hatt]
    exact h.flying k' v (hget k' v hv).2
  · rw [s.chunkSent_inFlight, BTreeMap.get_erase, if_neg (Ne.symm (hrest d hd).2)]
    exact h.unsubmitted d (hrest d hd).1
  · obtain ⟨hk, hv⟩ := hget k' v hv
    rw [hpending k' hk]
    refine h.resolved k' v hv fun d hd hdk => ?_
    exact hne d (hbatch d hd fun hk' => hk (hk'.symm.trans hdk)) hdk

/-- The first dispatch of the batch was accepted and is pending now. -/
theorem accepted {d : ChunkDispatch Nat} (h : SessionTracked (d :: batch) subs pending s)
    (hself : pending' d.handle = some d.peer)
    (hpending : ∀ k, d.handle ≠ k → pending' k = pending k) :
    SessionTracked batch subs pending' s where
  attached := h.attached
  flying := h.flying
  unsubmitted d' hd' := h.unsubmitted d' (List.mem_cons_of_mem d hd')
  resolved k v hv hne := by
    by_cases hk : d.handle = k
    · subst hk
      rw [h.unsubmitted d List.mem_cons_self] at hv
      rw [hself, ← Option.some.inj hv]
    · rw [hpending k hk]
      refine h.resolved k v hv fun d' hd' => ?_
      rcases List.mem_cons.mp hd' with rfl | hd'
      · exact hk
      · exact hne d' hd'

/-- The first dispatch of the batch was refused and is refunded. -/
theorem refused {d : ChunkDispatch Nat} (h : SessionTracked (d :: batch) subs pending s)
    (hnd : ∀ d' ∈ batch, d'.handle ≠ d.handle) :
    SessionTracked batch subs pending (s.chunkSent d.peer d.handle false) := by
  refine h.chunkSent d.peer d.handle false
    (fun d' hd' => ⟨List.mem_cons_of_mem d hd', hnd d' hd'⟩) (fun d' hd' hne => ?_) fun _ _ => rfl
  rcases List.mem_cons.mp hd' with rfl | hd'
  · exact absurd rfl hne
  · exact hd'

/-- A poll puts exactly its batch in flight. -/
theorem pollChunks (h : SessionTracked [] subs pending s) :
    SessionTracked s.pollChunks.1 subs pending s.pollChunks.2 := by
  have hspec := s.pollChunks_spec
  have hnd := s.pollChunks_handles_nodup
  refine ⟨?_, fun k v hv => ?_, fun d hd => ?_, fun k v hv hne => ?_⟩
  · rw [hspec.attachedPeers_eq]
    exact h.attached
  · rw [hspec.inFlight_eq] at hv
    rw [hspec.attachedPeers_eq]
    rcases RsStrategy.get_addFlights hv with ⟨d, hd, -, rfl⟩ | ⟨-, hold⟩
    · exact RsStrategy.pollChunks_peer_mem hd
    · exact h.flying k v hold
  · rw [hspec.inFlight_eq]
    exact RsStrategy.get_addFlights_self hnd hd
  · rw [hspec.inFlight_eq] at hv
    rcases RsStrategy.get_addFlights hv with ⟨d, hd, hk, -⟩ | ⟨-, hold⟩
    · exact absurd hk (hne d hd)
    · exact h.resolved k v hold (by simp)

/-- A poll of the session: routing first, then chunks. -/
theorem poll [Crates] {s : Session RsStrategy} (h : SessionTracked [] subs pending s.strategy) :
    SessionTracked s.poll.1.dispatches subs pending s.poll.2.strategy := by
  have hrouting : SessionTracked [] subs pending (s.strategy.pollRouting false).2 := by
    rcases s.strategy.pollRouting_cases false with hr | hr <;> rw [hr]
    · exact h
    · exact h.congr rfl rfl
  exact hrouting.pollChunks

/-- A strategy with nobody attached and nothing in flight. -/
theorem attachAll [Crates] {ch : Channel RsStrategy} {s : Session RsStrategy}
    (hatt : s.strategy.attachedPeers = ∅) (hfl : s.strategy.inFlight = ∅) :
    SessionTracked [] ch.subscribers pending (ch.attachAll s).strategy := by
  have h0 : SessionTracked [] ch.subscribers pending s.strategy :=
    ⟨by simp [hatt], by simp [hfl], by simp, by simp [hfl]⟩
  unfold Channel.attachAll
  apply List.foldlRecOn (motive := fun s : Session RsStrategy =>
    SessionTracked [] ch.subscribers pending s.strategy) ch.subscribers.toList Session.attachPeer h0
  intro s hs p hp
  exact hs.attachPeer p (ExtTreeSet.mem_toList.mp hp) fun _ hq => hq

end SessionTracked

/-! ## The engine -/

namespace Engine

section Tracked

variable [Crates] {N : Type}

/-- Everything in flight is pending, except that the sessions of key `k` may still have the `batch`
to submit. -/
structure TrackedBut (k : SessionKey) (batch : List (ChunkDispatch Nat)) (e : Engine RsStrategy N) :
    Prop where
  factories : e.RelayFactories
  sessions : ∀ (c : ChannelId) (m : MessageId) ch s, e.channels[c]? = some ch →
    ch.sessions[m]? = some s →
    SessionTracked (if (c, m) = k then batch else []) ch.subscribers
      (fun h => e.pendingSends[(c, m, h)]?) s.strategy

/-- Everything in flight is pending. -/
def Tracked (e : Engine RsStrategy N) : Prop := ∀ k, TrackedBut k [] e

variable {k : SessionKey} {batch : List (ChunkDispatch Nat)} {c : ChannelId} {m : MessageId}
  {e e' : Engine RsStrategy N}

/-- With nothing left to submit, everything is tracked. -/
theorem TrackedBut.tracked (h : TrackedBut k [] e) : Tracked e := by
  refine fun k' => ⟨h.factories, fun c m ch s hch hs => ?_⟩
  simpa using h.sessions c m ch s hch hs

/-- One session of an engine that is tracked. -/
theorem Tracked.session (h : Tracked e) {ch : Channel RsStrategy} {s : Session RsStrategy}
    (hch : e.channels[c]? = some ch) (hs : ch.sessions[m]? = some s) :
    SessionTracked [] ch.subscribers (fun h => e.pendingSends[(c, m, h)]?) s.strategy := by
  simpa using (h (c, m)).sessions c m ch s hch hs

/-- Only the channels and the pending sends matter. -/
theorem TrackedBut.congr (h : TrackedBut k batch e) (hch : e'.channels = e.channels)
    (hpending : e'.pendingSends = e.pendingSends) : TrackedBut k batch e' := by
  obtain ⟨hf, hs⟩ := h
  refine ⟨fun c build hbuild => hf c build ?_, ?_⟩
  · rwa [build?, hch] at hbuild
  · rwa [hch, hpending]

/-- An update of one session, and of its pending sends. -/
theorem TrackedBut.modifySession {rest : List (ChunkDispatch Nat)} (h : TrackedBut (c, m) batch e)
    {f : Session RsStrategy → Session RsStrategy}
    (hch : e'.channels = (e.modifySession c m f).channels)
    (hpending : ∀ (c' : ChannelId) (m' : MessageId) (h : DispatchHandle), ¬ (c = c' ∧ m = m') →
      e'.pendingSends[(c', m', h)]? = e.pendingSends[(c', m', h)]?)
    (hf : ∀ ch s, e.channels[c]? = some ch → ch.sessions[m]? = some s →
      SessionTracked batch ch.subscribers (fun h => e.pendingSends[(c, m, h)]?) s.strategy →
      SessionTracked rest ch.subscribers (fun h => e'.pendingSends[(c, m, h)]?) (f s).strategy) :
    TrackedBut (c, m) rest e' := by
  refine ⟨fun c' build hbuild => h.factories c' build ?_, fun c' m' ch' s' hch' hs' => ?_⟩
  · rw [build?, hch] at hbuild
    rwa [← build?_eq c' ((DrainFrame.modifySession (m := m) e f).factory_eq c')]
  · rw [hch, channels_modifySession] at hch'
    split at hch'
    case isTrue hc =>
      subst hc
      obtain ⟨ch, hch, rfl⟩ := Option.map_eq_some_iff.mp hch'
      rw [BTreeMap.get_modify] at hs'
      split at hs'
      case isTrue hm =>
        subst hm
        obtain ⟨s, hs, rfl⟩ := Option.map_eq_some_iff.mp hs'
        -- the session itself
        have hold := h.sessions c m ch s hch hs
        simp only [if_true] at hold ⊢
        exact hf ch s hch hs hold
      case isFalse hm =>
        -- another session of the channel
        have hold := h.sessions c m' ch s' hch hs'
        have hkey : ¬ ((c, m') = (c, m)) := by simpa using Ne.symm hm
        simp only [if_neg hkey, hpending c m' _ (fun hk => hm hk.2)] at hold ⊢
        exact hold
    case isFalse hc =>
      -- a session of another channel
      have hold := h.sessions c' m' ch' s' hch' hs'
      have hkey : ¬ ((c', m') = (c, m)) := by
        simp only [Prod.mk.injEq, not_and]
        exact fun hc' => absurd hc'.symm hc
      simp only [if_neg hkey, hpending c' m' _ (fun hk => hc hk.1)] at hold ⊢
      exact hold

theorem Tracked.congr (h : Tracked e) (hch : e'.channels = e.channels)
    (hpending : e'.pendingSends = e.pendingSends) : Tracked e' :=
  fun k => (h k).congr hch hpending

/-- An update of one session that leaves the pending sends alone. -/
theorem Tracked.modifySession (h : Tracked e) {f : Session RsStrategy → Session RsStrategy}
    (hch : e'.channels = (e.modifySession c m f).channels)
    (hpending : e'.pendingSends = e.pendingSends)
    (hf : ∀ subs pending s, SessionTracked [] subs pending s.strategy →
      SessionTracked [] subs pending (f s).strategy) : Tracked e' := by
  refine ((h (c, m)).modifySession hch (fun _ _ _ _ => by rw [hpending])
    fun ch s _ _ htracked => ?_).tracked
  rw [hpending]
  exact hf _ _ s htracked

/-- An update of every session of some channels, which may drop subscribers and pending sends. -/
theorem Tracked.of_channels (h : Tracked e) (hfactories : e'.RelayFactories)
    (hsessions : ∀ (c : ChannelId) (m : MessageId) ch' s', e'.channels[c]? = some ch' →
      ch'.sessions[m]? = some s' → ∃ ch s, e.channels[c]? = some ch ∧ ch.sessions[m]? = some s
        ∧ (SessionTracked [] ch.subscribers (fun h => e.pendingSends[(c, m, h)]?) s.strategy →
          SessionTracked [] ch'.subscribers (fun h => e'.pendingSends[(c, m, h)]?) s'.strategy)) :
    Tracked e' := by
  refine fun k => ⟨hfactories, fun c m ch' s' hch' hs' => ?_⟩
  obtain ⟨ch, s, hch, hs, hkeep⟩ := hsessions c m ch' s' hch' hs'
  simpa using hkeep (h.session hch hs)

/-! ## One round of a drain -/

/-- The next chunk of the batch was accepted, and is pending. -/
theorem TrackedBut.chunkAccepted {d : ChunkDispatch Nat} (h : TrackedBut (c, m) (d :: batch) e)
    (net : N) :
    TrackedBut (c, m) batch
      { e with net, pendingSends := e.pendingSends.insert (c, m, d.handle) d.peer } := by
  refine h.modifySession (f := id) (e.channels_modifySession_id c m).symm (fun c' m' k hne => ?_)
    fun ch s hch hs htracked => ?_
  · rw [BTreeMap.get_insert, if_neg]
    simp only [Prod.mk.injEq, not_and]
    intro hc hm
    exact absurd ⟨hc, hm⟩ hne
  · refine htracked.accepted ?_ fun k hk => ?_
    · rw [BTreeMap.get_insert, if_pos rfl]
    · rw [BTreeMap.get_insert, if_neg]
      simpa using hk

/-- The next chunk of the batch was refused, and is refunded. -/
theorem TrackedBut.chunkRefused {d : ChunkDispatch Nat} (h : TrackedBut (c, m) (d :: batch) e)
    (hnd : ∀ d' ∈ batch, d'.handle ≠ d.handle) (net : N) :
    TrackedBut (c, m) batch
      ({ e with net }.modifySession c m (·.chunkSent d.peer d.handle false)) := by
  refine TrackedBut.modifySession (e := { e with net }) (h.congr rfl rfl) rfl (fun _ _ _ _ => rfl)
    fun ch s hch hs htracked => htracked.refused hnd

/-- A session was polled, and its batch is due. -/
theorem Tracked.polled (h : Tracked e) {s : Session RsStrategy} (hs : e.session? c m = some s) :
    TrackedBut (c, m) s.poll.1.dispatches (e.modifySession c m fun _ => s.poll.2) := by
  obtain ⟨ch, hch, hsess⟩ := session?_eq_some.mp hs
  refine (h (c, m)).modifySession rfl (fun _ _ _ _ => rfl) fun ch' s' hch' hs' htracked => ?_
  obtain rfl := Option.some.inj (hch.symm.trans hch')
  obtain rfl := Option.some.inj (hsess.symm.trans hs')
  exact htracked.poll

variable [Net N]

theorem TrackedBut.ensureSessionOpen (h : TrackedBut k batch e) (c : ChannelId) (m : MessageId)
    (peer : PeerId) : TrackedBut k batch (e.ensureSessionOpen c m peer).2 :=
  h.congr (e.ensureSessionOpen_same c m peer).1 (e.ensureSessionOpen_same c m peer).2

/-- A batch that is submitted to the end leaves nothing untracked. -/
theorem dispatchEach_tracked (ds : List (ChunkDispatch Nat)) (stalled : Bool)
    (e : Engine RsStrategy N) (hnd : (ds.map (·.handle)).Nodup) (h : TrackedBut (c, m) ds e)
    (r : Bool) (hr : (dispatchEach c m ds stalled e).1 = .ok r) :
    Tracked (dispatchEach c m ds stalled e).2 := by
  induction ds generalizing e stalled with
  | nil => exact h.tracked
  | cons d ds ih =>
    have hopen := h.ensureSessionOpen c m d.peer
    simp only [List.map_cons, List.nodup_cons, List.mem_map, not_exists, not_and] at hnd
    unfold dispatchEach at hr ⊢
    rcases he1 : e.ensureSessionOpen c m d.peer with ⟨err | _, e1⟩
    · simp [he1] at hr
    · rw [he1] at hopen
      simp only [he1, send_eq] at hr ⊢
      rcases hsend : Net.send e1.net (.chunk d.peer c m d.chunkId d.payload d.handle) with
        ⟨err | _, net⟩ <;> rw [hsend] at hr
      · exact ih _ _ hnd.2 (hopen.chunkRefused hnd.1 net) hr
      · exact ih _ _ hnd.2 (hopen.chunkAccepted net) hr

/-- **One round.**  Everything stays tracked unless the round polled a batch and then ended in an
error. -/
theorem drainRound_tracked (e : Engine RsStrategy N) (c : ChannelId) (m : MessageId)
    (h : Tracked e)
    (hclean : ∀ s, e.session? c m = some s → s.poll.1.dispatches ≠ [] →
      ∀ err, (e.drainRound c m).1 ≠ some (.error err)) :
    Tracked (e.drainRound c m).2 := by
  unfold drainRound at hclean ⊢
  cases hs : e.session? c m with
  | none => exact h
  | some s =>
    have hpolled := h.polled hs
    have hclean := hclean s hs
    simp only [hs] at hclean ⊢
    obtain ⟨hch, hpending⟩ := routeWork_same c m s.poll.1.routing
      (e.modifySession c m fun _ => s.poll.2)
    have hrouted := hpolled.congr hch hpending
    by_cases hbatch : s.poll.1.dispatches = []
    · -- nothing was polled: whatever exit is taken, nothing is left behind
      rw [hbatch] at hpolled hrouted
      split
      · exact hpolled.tracked
      · rcases hr : routeWork c m s.poll.1.routing (e.modifySession c m fun _ => s.poll.2) with
          ⟨err | _, e1⟩ <;> rw [hr] at hrouted
        · exact hrouted.tracked
        · rw [hbatch]
          exact hrouted.tracked
    -- a batch was polled: the round is not cut short, and so submits all of it
    · have hclean := hclean hbatch
      rw [if_neg (by simp [hbatch])] at hclean ⊢
      rcases hr : routeWork c m s.poll.1.routing (e.modifySession c m fun _ => s.poll.2) with
        ⟨err | _, e1⟩ <;> rw [hr] at hrouted hclean
      · exact absurd rfl (hclean err)
      · simp only at hclean ⊢
        have hdispatch := dispatchEach_tracked s.poll.1.dispatches false e1
          (s.strategy.pollRouting false).2.pollChunks_handles_nodup hrouted
        rcases hd : dispatchEach c m s.poll.1.dispatches false e1 with ⟨err | stalled, e2⟩ <;>
          rw [hd] at hclean hdispatch
        · exact absurd rfl (hclean err)
        · cases stalled <;> exact hdispatch _ rfl

/-! ## The other actions -/

variable {i : Input RsStrategy} {D : Terms N}

omit [Net N] in
/-- A session that was just created. -/
theorem Tracked.withRelay (h : Tracked e) {preamble : Bytes} {ch ch' : Channel RsStrategy}
    {s : Session RsStrategy} (hfresh : s.strategy.Fresh) (hch : e.channels[c]? = some ch)
    (hsubs : ch'.subscribers = ch.subscribers)
    (hsess : ch'.sessions = ch.sessions.insert m (ch.attachAll s))
    (hfactories : (e.withRelay c m preamble ch').RelayFactories) :
    Tracked (e.withRelay c m preamble ch') := by
  obtain ⟨config, preamble', chunks, n, seed, mode, hparts⟩ := hfresh
  refine fun k => ⟨hfactories, fun c' m' ch1 s1 hch1 hs1 => ?_⟩
  obtain ⟨clock, sessionMeta, hrelay⟩ := e.withRelay_eq c m preamble ch'
  rw [hrelay] at hch1 ⊢
  simp only [BTreeMap.get_insert] at hch1
  simp only [ite_self]
  split at hch1
  case isTrue hc =>
    subst hc
    obtain rfl := Option.some.inj hch1
    rw [hsess, BTreeMap.get_insert] at hs1
    rw [hsubs]
    split at hs1
    case isTrue =>
      obtain rfl := Option.some.inj hs1
      exact .attachAll (by rw [hparts]; rfl) (by rw [hparts]; rfl)
    case isFalse => exact h.session hch hs1
  case isFalse => exact h.session hch1 hs1

omit [Net N] in
/-- A channel that is hosted has no sessions yet. -/
theorem Tracked.hosted (h : Tracked e) {factory : StrategyFactory RsStrategy}
    (hfactories : RelayFactories { e with channels := e.channels.insert c (Channel.new c factory) }) :
    Tracked { e with channels := e.channels.insert c (Channel.new c factory) } := by
  refine h.of_channels hfactories fun c' m ch s hch hs => ?_
  simp only [BTreeMap.get_insert] at hch
  split at hch
  · obtain rfl := Option.some.inj hch
    simp [Channel.new] at hs
  · exact ⟨ch, s, hch, hs, id⟩

omit [Net N] in
/-- A peer that is enrolled in a channel is attached to the channel's sessions, as a subscriber. -/
theorem Tracked.enrolled (h : Tracked e) {peer : PeerId} (hfactories : (e.subscribePeer c peer).RelayFactories) :
    Tracked (e.subscribePeer c peer) := by
  refine h.of_channels hfactories fun c' m ch' s' hch' hs' => ?_
  simp only [subscribePeer, BTreeMap.get_modify] at hch'
  split at hch'
  case isTrue hc =>
    subst hc
    obtain ⟨ch, hch, rfl⟩ := Option.map_eq_some_iff.mp hch'
    unfold Channel.subscribePeer at hs' ⊢
    by_cases hp : peer ∈ ch.subscribers
    · rw [if_pos hp] at hs' ⊢
      exact ⟨ch, s', hch, hs', id⟩
    · rw [if_neg hp] at hs' ⊢
      rw [ExtTreeMap.getElem?_map] at hs'
      obtain ⟨s, hs, rfl⟩ := Option.map_eq_some_iff.mp hs'
      exact ⟨ch, s, hch, hs, fun htracked => htracked.attachPeer peer
        ((BTreeSet.mem_insert_iff _ _ _).mpr (.inl rfl))
        fun q hq => (BTreeSet.mem_insert_iff _ _ _).mpr (.inr hq)⟩
  case isFalse => exact ⟨ch', s', hch', hs', id⟩

omit [Net N] in
/-- A peer that leaves a channel takes its flights there along; its pending sends stay, for their results. -/
theorem Tracked.unsubscribed (h : Tracked e) {peer : PeerId}
    (hfactories : (e.unsubscribePeer c peer).RelayFactories) : Tracked (e.unsubscribePeer c peer) := by
  refine h.of_channels hfactories fun c' m ch' s' hch' hs' => ?_
  simp only [unsubscribePeer, BTreeMap.get_modify] at hch'
  split at hch'
  case isTrue hc =>
    subst hc
    obtain ⟨ch, hch, rfl⟩ := Option.map_eq_some_iff.mp hch'
    obtain ⟨s, hs, hkeep⟩ := SessionTracked.unsubscribePeer hs' fun _ _ hq _ => hq
    exact ⟨ch, s, hch, hs, hkeep⟩
  case isFalse => exact ⟨ch', s', hch', hs', id⟩

omit [Net N] in
/-- A peer that is gone takes its flights along everywhere, and its pending sends. -/
theorem Tracked.disconnected (h : Tracked e) {peer : PeerId}
    (hfactories : (e.handlePeerDisconnected peer).RelayFactories) : Tracked (e.handlePeerDisconnected peer) := by
  refine h.of_channels hfactories fun c m ch' s' hch' hs' => ?_
  simp only [handlePeerDisconnected, ExtTreeMap.getElem?_map] at hch'
  obtain ⟨ch, hch, rfl⟩ := Option.map_eq_some_iff.mp hch'
  have hpending : ∀ (k : DispatchHandle) q, e.pendingSends[(c, m, k)]? = some q → q ≠ peer →
      (e.pendingSends.filter fun _ p => p ≠ peer)[(c, m, k)]? = some q := by
    intro k q hq hne
    simp [hq, hne]
  obtain ⟨s, hs, hkeep⟩ := SessionTracked.unsubscribePeer hs' hpending
  exact ⟨ch, s, hch, hs, hkeep⟩

omit [Net N] in
/-- A factory that was called in vain leaves the channel's sessions as they were. -/
theorem Tracked.refusedOpen (h : Tracked e) {preamble : Bytes} {ch ch' : Channel RsStrategy} {err : ChannelError}
    (hch : e.channels[c]? = some ch) (hopen : ch.openSession m preamble = (.error err, ch'))
    (hfactories : RelayFactories { e with channels := e.channels.insert c ch' }) :
    Tracked { e with channels := e.channels.insert c ch' } := by
  refine h.of_channels hfactories fun c' m' ch1 s1 hch1 hs1 => ?_
  simp only [BTreeMap.get_insert] at hch1
  split at hch1
  case isTrue hc =>
    subst hc
    obtain rfl := Option.some.inj hch1
    rcases Channel.openSession_error hopen with rfl | ⟨factory, -, rfl⟩ <;>
      exact ⟨_, s1, hch, hs1, id⟩
  case isFalse => exact ⟨ch1, s1, hch1, hs1, id⟩

omit [Net N] in
/-- A chunk that is taken changes neither the session's peers nor its flights. -/
theorem Tracked.took (h : Tracked e) (chunkId : Nat) (payload : Bytes) :
    Tracked (e.takeChunk c m chunkId payload).2 := by
  rw [takeChunk_eq]
  refine h.modifySession rfl rfl fun subs pending s htracked => ?_
  obtain ⟨chunks, hchunks⟩ := s.takeChunk_chunks chunkId payload
  rw [hchunks]
  exact htracked.congr rfl rfl

omit [Net N] in
/-- Decoding leaves the strategy alone. -/
theorem Tracked.decoded (h : Tracked e) {session : Session RsStrategy} (hs : e.session? c m = some session) :
    Tracked (e.afterDecode c m session) := by
  obtain ⟨clock, sessionMeta, delivered, hdecode, -⟩ := e.afterDecode_eq c m session
  obtain ⟨ch, hch, hsess⟩ := session?_eq_some.mp hs
  rw [hdecode]
  refine TrackedBut.tracked ((h (c, m)).modifySession rfl (fun _ _ _ _ => rfl)
    fun ch' s' hch' hs' htracked => ?_)
  obtain rfl := Option.some.inj (hch.symm.trans hch')
  obtain rfl := Option.some.inj (hsess.symm.trans hs')
  rwa [session.decodeAndFinish_strategy]

omit [Net N] in
/-- A result ends the flight and the pending send of one dispatch. -/
theorem Tracked.resolved (h : Tracked e) (peer : PeerId) (token : DispatchHandle) (ok : Bool) :
    Tracked (e.afterResolve peer c m token ok) := by
  refine TrackedBut.tracked ((h (c, m)).modifySession rfl (fun c' m' k hne => ?_)
    fun ch s _ _ htracked => ?_)
  · show (e.pendingSends.erase (c, m, token))[(c', m', k)]? = _
    rw [BTreeMap.get_erase, if_neg]
    simp only [Prod.mk.injEq, not_and]
    exact fun hc hm => absurd ⟨hc, hm⟩ hne
  · refine htracked.chunkSent peer token ok (by simp) (by simp) fun k hk => ?_
    show (e.pendingSends.erase (c, m, token))[(c, m, k)]? = _
    rw [BTreeMap.get_erase, if_neg]
    simpa using hk

omit [Net N] in
/-- A session that is disposed takes its own pending sends along. -/
theorem Tracked.disposed (h : Tracked e) {now : Instant} (hfactories : (e.disposeSession c m now).RelayFactories) :
    Tracked (e.disposeSession c m now) := by
  refine h.of_channels hfactories fun c' m' ch' s' hch' hs' => ?_
  simp only [disposeSession, BTreeMap.get_modify] at hch'
  split at hch'
  case isTrue hc =>
    subst hc
    obtain ⟨ch, hch, rfl⟩ := Option.map_eq_some_iff.mp hch'
    simp only [Channel.removeSession, BTreeMap.get_erase] at hs'
    split at hs'
    · cases hs'
    case isFalse hm =>
      refine ⟨ch, s', hch, hs', fun htracked => ?_⟩
      simp only [e.pendingSends_disposeSession now _ fun hk => hm hk.2]
      exact htracked
  case isFalse hc =>
    refine ⟨ch', s', hch', hs', fun htracked => ?_⟩
    simp only [e.pendingSends_disposeSession now _ fun hk => hc hk.1]
    exact htracked

/-- **Every action keeps everything tracked, if the drains do.** -/
theorem Act.tracked (h : Act i D e e') (hi : i.Valid)
    (hD : ∀ e k, D.drains e k → Tracked e → Tracked (e.drainSession k.1 k.2).2) (he : Tracked e) :
    Tracked e' := by
  have hfactories := h.relayFactories (hostsRelays_of_valid hi) (he ("", "")).factories
  cases h with
  | announced | registered | greeted | rejected | parked | unparked | swept | ticked | scheduled
  | received =>
    -- neither a session nor a pending send
    exact he.congr rfl rfl
  | hosted => exact he.hosted hfactories
  | enrolled => exact he.enrolled hfactories
  | unsubscribed => exact he.unsubscribed hfactories
  | disconnected => exact he.disconnected hfactories
  | refusedOpen hch hopen => exact he.refusedOpen hch hopen hfactories
  | openedRelay hinput htomb hch hopen =>
    obtain ⟨hm, strategy, factory, hbuild, rfl⟩ := Channel.openSession_ok hopen
    obtain ⟨decoded, config, seed, hnew⟩ := (he ("", "")).factories.newRelay hch hbuild
    exact he.withRelay (RsStrategy.newRelayWithSeed_fresh hnew) hch rfl rfl hfactories
  | @startedOrigin c m strategy preamble ch ch' hinput hch hstart =>
    obtain ⟨hm, rfl⟩ := Channel.startOriginSession_ok hstart
    subst hinput
    obtain ⟨payload, config, seed, hnew⟩ := hi
    exact he.withRelay (s := Session.newOrigin strategy) (RsStrategy.newOriginWithSeed_fresh hnew) hch rfl rfl
      hfactories
  | @ensured c m peer =>
    exact he.congr (e.ensureSessionOpen_same c m peer).1 (e.ensureSessionOpen_same c m peer).2
  | @drained c m hdrain => exact hD e (c, m) hdrain he
  | took => exact he.took _ _
  | decoded hdecodes hs => exact he.decoded hs
  | resolved => exact he.resolved _ _ _
  | @detached c m peer completed =>
    exact he.modifySession rfl rfl fun subs pending s htracked =>
      htracked.detachPeer peer completed (fun _ hq _ => hq) fun _ _ hq _ => hq
  | disposed => exact he.disposed hfactories

end Tracked

/-! ## Clean runs -/

section Clean

variable [Crates] {e : Engine RsStrategy Wire}

/-- A round that polled chunks has none of its `SessionOpen`s and `RoutingUpdate`s refused. -/
def RoundClean (e : Engine RsStrategy Wire) (k : SessionKey) : Prop :=
  ∀ s ∈ e.session? k.1 k.2, s.poll.1.dispatches ≠ [] →
    ∀ sent ∈ (e.drainRound k.1 k.2).2.net.log.drop e.net.log.length,
      sent.accepted ∨ sent.msg.isChunk

instance (e : Engine RsStrategy Wire) (k : SessionKey) : Decidable (e.RoundClean k) :=
  inferInstanceAs (Decidable (∀ s ∈ e.session? k.1 k.2, s.poll.1.dispatches ≠ [] →
    ∀ sent ∈ (e.drainRound k.1 k.2).2.net.log.drop e.net.log.length,
      sent.accepted ∨ sent.msg.isChunk))

/-- Every round of the drain of session `k` is clean. -/
def DrainClean (e : Engine RsStrategy Wire) (k : SessionKey) : Prop :=
  ∀ e' ∈ drainRounds k.1 k.2 (e.drainFuel k.1 k.2) e, e'.RoundClean k

instance (e : Engine RsStrategy Wire) (k : SessionKey) : Decidable (e.DrainClean k) :=
  inferInstanceAs (Decidable (∀ e' ∈ drainRounds k.1 k.2 (e.drainFuel k.1 k.2) e, e'.RoundClean k))

/-- Every drain of the step is clean. -/
def StepClean (e : Engine RsStrategy Wire) (i : Input RsStrategy) : Prop :=
  ∀ call ∈ e.drainCalls i, DrainClean call.1 call.2

instance (e : Engine RsStrategy Wire) (i : Input RsStrategy) : Decidable (e.StepClean i) :=
  inferInstanceAs (Decidable (∀ call ∈ e.drainCalls i, DrainClean call.1 call.2))

/-- A clean round keeps everything tracked: none of its control messages was refused, so that the batch was
submitted to its end. -/
theorem RoundClean.tracked {k : SessionKey} (hclean : e.RoundClean k) (h : Tracked e) :
    Tracked (e.drainRound k.1 k.2).2 := by
  refine drainRound_tracked e k.1 k.2 h fun s hs hbatch err herr => ?_
  obtain ⟨before, sent, hlog, ⟨added, hpre⟩, hrefused, hcontrol⟩ := drainRound_error herr
  have hmem : sent ∈ (e.drainRound k.1 k.2).2.net.log.drop e.net.log.length := by
    rw [hlog, ← hpre, List.append_assoc, List.drop_left]
    simp
  rcases hclean s hs hbatch sent hmem with hacc | hchunk
  · simp [hrefused] at hacc
  · simp [hcontrol] at hchunk

/-- A drain of clean rounds keeps everything tracked. -/
theorem drainLoop_tracked (k : SessionKey) (fuel : Nat) (e : Engine RsStrategy Wire)
    (hclean : ∀ e' ∈ drainRounds k.1 k.2 fuel e, e'.RoundClean k) (h : Tracked e) :
    Tracked (drainLoop k.1 k.2 fuel e).2 := by
  induction fuel generalizing e with
  | zero => exact h
  | succ fuel ih =>
    unfold drainRounds at hclean
    have hround := (hclean e List.mem_cons_self).tracked h
    unfold drainLoop
    rcases hr : e.drainRound k.1 k.2 with ⟨_ | r, e1⟩ <;> rw [hr] at hround hclean
    · exact ih e1 (fun e' he' => hclean e' (List.mem_cons_of_mem e he')) hround
    · exact hround

/-- A step with clean drains keeps everything tracked. -/
theorem Tracked.step {i : Input RsStrategy} (h : Tracked e) (hi : i.Valid)
    (hclean : e.StepClean i) : Tracked (e.step i).2 :=
  (step_acts_of_drains (D := ⟨DrainClean, True, True⟩) trivial trivial i e hclean).induct
    (fun hact he => hact.tracked hi (fun e k hD he => drainLoop_tracked k _ e hD he) he) h

/-- A new engine has nothing in flight. -/
theorem tracked_withConfig {N : Type} (localPeer : PeerId) (net : N) (delivered : Sink)
    (config : EngineConfig) (clock : Clock) :
    Tracked (withConfig localPeer net delivered config clock) := by
  refine fun k => ⟨?_, ?_⟩
  · simp [RelayFactories, withConfig, build?]
  · simp [withConfig]

/-- Every entry of every live session's flights has its pending send. -/
def Resolved {N : Type} (e : Engine RsStrategy N) : Prop :=
  ∀ c m s, e.session? c m = some s → ∀ (h : DispatchHandle) p idx,
    s.strategy.inFlight[h]? = some (p, idx) → e.pendingSends[(c, m, h)]? = some p

/-- **Every dispatch is resolved** in every run in which no poll round that returned chunks has a
`SessionOpen` or a `RoutingUpdate` refused; chunks may be refused at will. -/
theorem run_resolved (localPeer : PeerId) (net : Wire) (delivered : Sink) (config : EngineConfig)
    (clock : Clock) (inputs : List (Input RsStrategy)) (hvalid : ∀ i ∈ inputs, i.Valid)
    (hclean : (withConfig localPeer net delivered config clock).EachStep StepClean inputs) :
    Resolved ((withConfig localPeer net delivered config clock).run inputs) := by
  have htracked := hclean.run (Q := Tracked) (fun e i hi hstep he => he.step (hvalid i hi) hstep)
    (tracked_withConfig localPeer net delivered config clock)
  intro c m s hs h p idx hflight
  obtain ⟨ch, hch, hsess⟩ := session?_eq_some.mp hs
  exact (htracked.session hch hsess).resolved h (p, idx) hflight (by simp)

end Clean

section OneShard

attribute [local instance] oneShard

/-- The message `01` is published to the subscribers 1 and 2. -/
def publishToTwo : List (Input RsStrategy) :=
  [.subscribe "c" (rsRelayFactory {} fun _ => 7), .event (.subscribe 1 "c"),
    .event (.subscribe 2 "c"), .publish "c" "m" OneShard.origin (OneShard.preambleBytes
      OneShard.preamble)]

theorem publishToTwo_valid : ∀ i ∈ publishToTwo, i.Valid := by
  simp only [publishToTwo, List.forall_mem_cons, List.not_mem_nil, false_implies, implies_true,
    and_true]
  exact ⟨⟨{}, _, rfl⟩, trivial, trivial, ⟨[1], OneShard.config, 7, OneShard.newOrigin_eq⟩⟩

/-- Every chunk to peer 2 is refused. -/
def refuseChunksToTwo (_ : List Sent) : NetSend → Except NetError Unit
  | .chunk 2 .. => .error (.backpressure 2)
  | _ => .ok ()

/-- Every chunk to one of two peers is refused, and every dispatch is resolved all the same. -/
theorem run_resolved_chunks_refused :
    (nodeOver refuseChunksToTwo).EachStep StepClean publishToTwo
    ∧ ((nodeOver refuseChunksToTwo).run publishToTwo).net.log.any (!·.accepted)
    ∧ Resolved ((nodeOver refuseChunksToTwo).run publishToTwo) := by
  have hclean : (nodeOver refuseChunksToTwo).EachStep StepClean publishToTwo := by decide +kernel
  exact ⟨hclean, by decide +kernel, run_resolved _ _ _ _ _ _ publishToTwo_valid hclean⟩

/-- The routing update to peer 1 is refused. -/
def refuseRoutingToOne (_ : List Sent) : NetSend → Except NetError Unit
  | .routingUpdate 1 .. => .error (.backpressure 1)
  | _ => .ok ()

/-- The refused routing update strands the batch of the same poll. -/
theorem run_not_resolved_routing_refused :
    (∀ i ∈ publishToTwo, i.Valid)
    ∧ ¬ Resolved ((nodeOver refuseRoutingToOne).run publishToTwo) := by
  refine ⟨publishToTwo_valid, fun h => ?_⟩
  have hflight : (((nodeOver refuseRoutingToOne).run publishToTwo).session? "c" "m").any
      (·.strategy.inFlight[(0 : DispatchHandle)]? = some (1, 0)) = true := by decide +kernel
  have hpending : ((nodeOver refuseRoutingToOne).run publishToTwo).pendingSends[
      (("c", "m", 0) : ChannelId × MessageId × DispatchHandle)]? = none := by decide +kernel
  obtain ⟨s, hs, hfl⟩ := (Option.any_eq_true _ _).mp hflight
  have hresolved := h "c" "m" s hs 0 1 0 (by simpa using hfl)
  rw [hpending] at hresolved
  cases hresolved

end OneShard

end Engine

end Ethp2p
