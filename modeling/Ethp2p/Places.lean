/-
# Ethp2p.Places — a message is live, disposed or parked, never two of them.

A key should be in one place at a time: a live session, a tombstone left by a disposed one, or chunks
parked for one that is still to open.  `SessionOpen` and `Chunk` look at the other places before they
act; `publish` looks at the sessions only, and a chunk is parked whether its channel is hosted or not.
`run_onePlace` says that those two are all there is: in every run whose publishes name neither a
disposed nor a parked message, and whose parked chunks are for hosted channels, no message is ever in
two places.

During a `SessionOpen` the new session and the chunks parked for it meet, until the replay takes the
chunks out; `Ledger.Apart` is the invariant with that exception.
-/
import Ethp2p.Engine.Ledger
import Ethp2p.Strategy.Rs.OneShard

namespace Ethp2p

open Std

/-- The input opens a relay session of the key. -/
def Input.opensRelay {S : Type} (k : SessionKey) : Input S → Prop
  | .event (.sessionOpen _ c m ..) => (c, m) = k
  | _ => False

namespace Ledger

/-- The key is in at most one place; `opening` excepts a session that has just been opened and the
chunks parked for it. -/
structure Apart (opening : Prop) (L : Ledger) : Prop where
  live_tombstone : L.session.isSome → L.tombstone = none
  live_parked : L.session.isSome → L.parked = none ∨ opening
  tombstone_parked : L.tombstone.isSome → L.parked = none
  parked_hosted : L.parked.isSome → L.subscribers.isSome
  parked_size : ∀ buf, L.parked = some buf → 1 ≤ buf.length ∧ buf.length ≤ maxParkedChunksPerMessage

/-- What the input may do to the key: publish it only if it is neither disposed nor parked, park a
chunk of it only if its channel is hosted. -/
structure Admits (i : Input RsStrategy) (k : SessionKey) (L : Ledger) : Prop where
  publish : ∀ strategy preamble, i = .publish k.1 k.2 strategy preamble → L.session = none →
    L.subscribers.isSome → L.tombstone = none ∧ L.parked = none
  chunk : ∀ peer chunkId payload, i = .event (.chunk peer k.1 k.2 chunkId payload) →
    L.tombstone = none → L.session = none → L.subscribers.isSome

variable {opening : Prop} {L L' : Ledger}

/-- A change that takes nothing into a place. -/
theorem Apart.mono (h : L.Apart opening) (hsession : L'.session.isSome → L.session.isSome)
    (hsubs : L.subscribers.isSome → L'.subscribers.isSome)
    (htomb : L'.tombstone = L.tombstone) (hparked : L'.parked = L.parked) : L'.Apart opening where
  live_tombstone hs := htomb.trans (h.live_tombstone (hsession hs))
  live_parked hs := (h.live_parked (hsession hs)).imp_left hparked.trans
  tombstone_parked ht := hparked.trans (h.tombstone_parked (htomb ▸ ht))
  parked_hosted hp := hsubs (h.parked_hosted (hparked ▸ hp))
  parked_size buf hbuf := h.parked_size buf (hparked.symm.trans hbuf)

end Ledger

/-- The buffer of a message has room for at most as many chunks, and is not empty. -/
theorem parkIn_length (buf : List ParkedChunk) (chunk : ParkedChunk)
    (h : buf.length ≤ maxParkedChunksPerMessage) :
    1 ≤ (parkIn buf chunk).length ∧ (parkIn buf chunk).length ≤ maxParkedChunksPerMessage := by
  unfold parkIn
  by_cases hfull : buf.length ≥ maxParkedChunksPerMessage
  · rw [if_pos hfull, List.length_append, List.length_tail, List.length_singleton]
    simp only [maxParkedChunksPerMessage] at h hfull ⊢
    omega
  · rw [if_neg hfull, List.length_append, List.length_singleton]
    omega

/-- A sweep lets chunks go, and buffers that it empties. -/
theorem expireParked_length {now : Instant} {buf buf' : List ParkedChunk}
    (h : expireParked now buf = some buf') : 1 ≤ buf'.length ∧ buf'.length ≤ buf.length := by
  simp only [expireParked, Option.filter_eq_some_iff, Option.some.injEq, Bool.not_eq_true',
    List.isEmpty_eq_false_iff] at h
  obtain ⟨rfl, hne⟩ := h
  exact ⟨List.length_pos_of_ne_nil hne, List.length_filter_le _ _⟩

section Steps

variable [Crates] {A : Premises} {i : Input RsStrategy} {k : SessionKey} {L L' : Ledger}

/-- **Every change keeps the places apart**, except for a session that is being opened. -/
theorem LedgerStep.apart {opening : Prop} (h : LedgerStep A i k L L')
    (hopening : i.opensRelay k → opening) (hadmits : L.Admits i k) (hL : L.Apart opening) :
    L'.Apart opening := by
  cases h with
  | submitted | openRefused | opened | routed | chunkAccepted | abandoned => exact hL.mono id id rfl rfl
  | hosted => exact hL.mono id (fun _ => rfl) rfl rfl
  | enrolled _ hsubs | unsubscribed _ hsubs => exact hL.mono (by simp) (fun _ => rfl) rfl rfl
  | disconnected =>
    refine hL.mono (fun h => ?_) (by simp [Ledger.disconnect]) rfl rfl
    simp only [Ledger.disconnect] at h
    split at h
    · simpa using h
    · exact h
  | polled hs | chunkRefused hs | took _ hs | decoded _ hs | detached _ hs =>
    exact hL.mono (fun _ => by simp [hs]) id rfl rfl
  | resolved => exact hL.mono (by simp) id rfl rfl
  | @created subs preamble state strategy now hnone hsubs hnew =>
    cases hnew with
    | relay hi htomb =>
      -- a relay may find chunks parked: the same step replays them
      have hyes : opening := hopening (by simp [hi, Input.opensRelay])
      exact ⟨fun _ => htomb, fun _ => .inr hyes, hL.tombstone_parked, hL.parked_hosted,
        hL.parked_size⟩
    | origin hi =>
      -- an origin finds neither a tombstone nor parked chunks, by the condition
      obtain ⟨htomb, hparked⟩ := hadmits.publish _ _ hi hnone (by simp [hsubs])
      exact ⟨fun _ => htomb, fun _ => .inl hparked, hL.tombstone_parked, hL.parked_hosted,
        hL.parked_size⟩
  | @parked peer chunkId payload parkedAt hi htomb hnone =>
    refine ⟨by simp [hnone], by simp [hnone], by simp [htomb], fun _ => ?_, fun buf hbuf => ?_⟩
    · exact hadmits.chunk _ _ _ hi htomb hnone
    · cases hbuf
      refine parkIn_length _ _ ?_
      cases hparked : L.parked with
      | none => simp [maxParkedChunksPerMessage]
      | some buf => exact (hL.parked_size buf hparked).2
  | unparked =>
    exact ⟨hL.live_tombstone, fun _ => .inl rfl, fun _ => rfl, by simp, by simp⟩
  | disposed =>
    -- the tombstone takes the place of the session
    exact ⟨by simp [Ledger.dispose], by simp [Ledger.dispose], fun _ => rfl,
      by simp [Ledger.dispose], by simp [Ledger.dispose]⟩
  | @swept now ttl =>
    refine ⟨fun hs => ?_, fun hs => ?_, fun ht => ?_, fun hp => ?_, fun buf hbuf => ?_⟩
    · simp [hL.live_tombstone hs]
    · exact (hL.live_parked hs).imp_left fun hnone => by simp [hnone]
    · have hsome : L.tombstone.isSome := by
        simp only [Option.isSome_filter] at ht
        exact Option.isSome_of_any ht
      simp [hL.tombstone_parked hsome]
    · refine hL.parked_hosted ?_
      cases hparked : L.parked with
      | none => simp [hparked] at hp
      | some buf => rfl
    · obtain ⟨old, hold, hexpire⟩ := Option.bind_eq_some_iff.mp hbuf
      have hlen := expireParked_length hexpire
      exact ⟨hlen.1, hlen.2.trans (hL.parked_size old hold).2⟩

/-- Before the sweep a step does not make an input less admissible. -/
theorem LedgerStep.admits (h : LedgerStep A i k L L') (hsweeps : ¬ A.sweeps) (hL : L.Admits i k) :
    L'.Admits i k := by
  cases h with
  | submitted | openRefused | opened | routed | chunkAccepted | abandoned => exact ⟨hL.publish, hL.chunk⟩
  | hosted hi => exact ⟨by simp [hi], fun _ _ _ _ _ _ => rfl⟩
  | enrolled hi hsubs =>
    refine ⟨fun _ _ hi' => ?_, fun _ _ _ _ _ _ => rfl⟩
    rw [hi'] at hi
    exact hi.elim
  | unsubscribed hi => exact ⟨by simp [hi], by simp [hi]⟩
  | disconnected hi => exact ⟨by simp [hi], by simp [hi]⟩
  | polled | chunkRefused | took | decoded | detached => exact ⟨by simp, by simp⟩
  | resolved hi => exact ⟨by simp [hi], by simp [hi]⟩
  | created => exact ⟨by simp, by simp⟩
  | parked hi => exact ⟨by simp [hi], hL.chunk⟩
  | unparked =>
    exact ⟨fun s p hi hs hsubs => ⟨(hL.publish s p hi hs hsubs).1, rfl⟩, hL.chunk⟩
  | disposed hyes | swept hyes => exact absurd hyes hsweeps

end Steps

namespace Engine

section Steps

variable [Crates] {e : Engine RsStrategy Wire} {i : Input RsStrategy} {k : SessionKey}
  {c : ChannelId} {m : MessageId}

theorem replayEach_parkedChunks (chunks : List ParkedChunk) (anyComplete : Bool)
    (e : Engine RsStrategy Wire) :
    (replayEach c m chunks anyComplete e).2.parkedChunks = e.parkedChunks := by
  induction chunks generalizing e anyComplete with
  | nil => rfl
  | cons chunk chunks ih =>
    refine (ih _ _).trans ?_
    show (e.takeChunk c m chunk.chunkId chunk.payload).2.parkedChunks = _
    rw [takeChunk_eq]
    rfl

/-- A replay takes the whole buffer. -/
theorem afterReplay_parkedChunks (e : Engine RsStrategy Wire) :
    (e.afterReplay c m).2.parkedChunks[(c, m)]? = none := by
  unfold afterReplay
  split
  case h_1 hnone => exact hnone
  case h_2 parked hparked =>
    dsimp only
    rw [(drainSession_steps _ c m).frame.parkedChunks_eq, replayEach_parkedChunks]
    simp

/-- A `SessionOpen` changes nothing about its key, or takes its parked chunks out. -/
theorem afterOpen_parked (e : Engine RsStrategy Wire) (preamble : Bytes) :
    (e.afterOpen c m preamble).2.ledger (c, m) = e.ledger (c, m)
      ∨ (e.afterOpen c m preamble).2.parkedChunks[(c, m)]? = none := by
  unfold afterOpen
  split
  · exact .inl rfl
  · cases hch : e.channels[c]? with
    | none => exact .inl rfl
    | some ch =>
      dsimp only
      rcases hopen : ch.openSession m preamble with ⟨err | _, ch'⟩
      · have hsame : ch'.subscribers = ch.subscribers ∧ ch'.sessions = ch.sessions := by
          rcases Channel.openSession_error hopen with rfl | ⟨factory, -, rfl⟩ <;> exact ⟨rfl, rfl⟩
        exact .inl (ledger_insert_same hch hsame.1 hsame.2)
      · exact .inr (afterReplay_parkedChunks _)

/-- The input publishes only what is neither disposed nor parked, and has chunks parked only for
hosted channels. -/
def PlacesApart (e : Engine RsStrategy Wire) : Input RsStrategy → Prop
  | .publish c m _ _ => e.session? c m = none → c ∈ e.channels →
    (c, m) ∉ e.tombstones ∧ (c, m) ∉ e.parkedChunks
  | .event (.chunk _ c m _ _) => (c, m) ∉ e.tombstones → e.session? c m = none → c ∈ e.channels
  | _ => True

instance (e : Engine RsStrategy Wire) : DecidablePred e.PlacesApart := fun i =>
  match i with
  | .publish c m _ _ =>
    inferInstanceAs (Decidable (e.session? c m = none → c ∈ e.channels →
      (c, m) ∉ e.tombstones ∧ (c, m) ∉ e.parkedChunks))
  | .event (.chunk _ c m _ _) =>
    inferInstanceAs (Decidable ((c, m) ∉ e.tombstones → e.session? c m = none → c ∈ e.channels))
  | .subscribe .. | .connect _ | .recv | .event (.handshake ..) | .event (.subscribe ..)
  | .event (.unsubscribe ..) | .event (.sessionOpen ..) | .event (.routingUpdate ..)
  | .event (.peerDisconnected _) | .event (.peerConnected _) | .event (.chunkSendResult ..)
  | .event (.peerReconstructed ..) | .event (.sessionClosed ..) => .isTrue trivial

omit [Crates] in
/-- What the step may do to the places of one session. -/
theorem PlacesApart.admits (h : e.PlacesApart i) (k : SessionKey) : (e.ledger k).Admits i k where
  publish strategy preamble hi hs hsubs := by
    subst hi
    obtain ⟨htomb, hparked⟩ := h hs (by simpa [ledger, Option.isSome_iff_exists] using hsubs)
    exact ⟨ExtTreeMap.getElem?_eq_none htomb, ExtTreeMap.getElem?_eq_none hparked⟩
  chunk peer chunkId payload hi htomb hs := by
    subst hi
    have hmem := h (by
      rw [BTreeMap.mem_iff_get]
      rintro ⟨t, ht⟩
      exact absurd (ht.symm.trans htomb) (by simp)) hs
    obtain ⟨ch, hch⟩ := (BTreeMap.mem_iff_get _ _).mp hmem
    simp [ledger, hch]

/-- An admissible step keeps the places of every key apart. -/
theorem step_apart (hadmits : e.PlacesApart i) (he : (e.ledger k).Apart False) :
    ((e.step i).2.ledger k).Apart False := by
  have hphase : ∀ opening : Prop, (i.opensRelay k → opening) →
      ((e.beforeDecode i).2.ledger k).Apart opening := by
    intro opening hopening
    have hstart : (e.ledger k).Apart opening :=
      { he with live_parked := fun hs => (he.live_parked hs).imp_right False.elim }
    refine ((beforeDecode_ledger (A := .none) i e k False.elim fun _ _ _ _ _ _ => trivial).induct
      (Q := fun L => L.Admits i k ∧ L.Apart opening) (fun hstep hL => ?_)
      ⟨hadmits.admits k, hstart⟩).2
    exact ⟨hstep.admits id hL.1, hstep.apart hopening hL.1 hL.2⟩
  have hbefore : ((e.beforeDecode i).2.ledger k).Apart False := by
    by_cases hopens : i.opensRelay k
    · have hopen := hphase True fun _ => trivial
      unfold Input.opensRelay at hopens
      split at hopens
      case h_1 peer c m preamble update =>
        subst hopens
        rcases e.afterOpen_parked (c := c) (m := m) preamble with hsame | hnone
        · exact hsame ▸ he
        · exact { hopen with live_parked := fun _ => .inl hnone }
      case h_2 => exact hopens.elim
    · exact hphase False hopens
  refine (afterDecode_ledger i e k).induct (fun hstep hL => hstep.apart False.elim ?_ hL) hbefore
  exact ⟨by simp, by simp⟩

/-- Every message is in at most one place: no live session has a tombstone or parked chunks, no
disposed one has parked chunks, and chunks are parked for hosted channels only, 1 to 32 for each
message. -/
structure OnePlace (e : Engine RsStrategy Wire) : Prop where
  live_tombstone : ∀ c m, (e.session? c m).isSome → (c, m) ∉ e.tombstones
  live_parked : ∀ c m, (e.session? c m).isSome → (c, m) ∉ e.parkedChunks
  tombstone_parked : ∀ k ∈ e.tombstones, k ∉ e.parkedChunks
  parked_hosted : ∀ k ∈ e.parkedChunks, k.1 ∈ e.channels
  parked_size : ∀ (k : SessionKey) buf, e.parkedChunks[k]? = some buf →
    1 ≤ buf.length ∧ buf.length ≤ 32

omit [Crates] in
/-- A message is in one place if each of its ledgers has it in one. -/
theorem OnePlace.of_apart (h : ∀ k, (e.ledger k).Apart False) : OnePlace e where
  live_tombstone c m hs := BTreeMap.not_mem_of_get ((h (c, m)).live_tombstone hs)
  live_parked c m hs :=
    BTreeMap.not_mem_of_get (((h (c, m)).live_parked hs).resolve_right id)
  tombstone_parked k hk :=
    BTreeMap.not_mem_of_get
      ((h k).tombstone_parked (ExtTreeMap.mem_iff_isSome_getElem?.mp hk))
  parked_hosted k hk := by
    have hsubs := (h k).parked_hosted (ExtTreeMap.mem_iff_isSome_getElem?.mp hk)
    rw [ExtTreeMap.mem_iff_isSome_getElem?]
    simpa [ledger] using hsubs
  parked_size k buf hbuf := (h k).parked_size buf hbuf

/-- **No message is in two places**, in every run whose publishes name neither a disposed nor a parked
message and whose parked chunks are for hosted channels. -/
theorem run_onePlace (localPeer : PeerId) (net : Wire) (delivered : Sink) (config : EngineConfig)
    (clock : Clock) (inputs : List (Input RsStrategy))
    (hplaces : (withConfig localPeer net delivered config clock).EachStep PlacesApart inputs) :
    OnePlace ((withConfig localPeer net delivered config clock).run inputs) := by
  refine .of_apart fun k => hplaces.run (Q := fun e => (e.ledger k).Apart False)
    (fun e i _ hstep he => step_apart hstep he) ?_
  rw [ledger_withConfig]
  exact ⟨by simp, by simp, by simp, by simp, by simp⟩

end Steps

section OneShard

attribute [local instance] oneShard

/-- The node hosts the channel. -/
def host : Input RsStrategy := .subscribe "c" (rsRelayFactory {} fun _ => 7)

/-- The message `01` is published. -/
def publishMessage : Input RsStrategy :=
  .publish "c" "m" OneShard.origin (OneShard.preambleBytes OneShard.preamble)

/-- A chunk of the message arrives. -/
def chunkArrives : Input RsStrategy := .event (.chunk 1 "c" "m" 0 [1])

/-- Nothing but the time changes. -/
def idle : Input RsStrategy := .event (.routingUpdate 1 "c" "m" [])

/-- A chunk that is early, the open it was waiting for, and the end of the session. -/
theorem run_onePlace_early_chunk :
    (nodeTicking (200 * second)).EachStep PlacesApart [host, chunkArrives,
      .event (.sessionOpen 1 "c" "m" (OneShard.preambleBytes OneShard.preamble) []), idle, idle]
    ∧ OnePlace ((nodeTicking (200 * second)).run [host, chunkArrives,
      .event (.sessionOpen 1 "c" "m" (OneShard.preambleBytes OneShard.preamble) []), idle, idle]) := by
  have hplaces : (nodeTicking (200 * second)).EachStep PlacesApart [host, chunkArrives,
      .event (.sessionOpen 1 "c" "m" (OneShard.preambleBytes OneShard.preamble) []), idle, idle] := by
    decide +kernel
  exact ⟨hplaces, run_onePlace _ _ _ _ _ _ hplaces⟩

/-- A published message is live beside its own tombstone or its own parked chunks, and a chunk is
parked for a channel nobody hosts. -/
theorem run_not_onePlace :
    ¬ OnePlace ((nodeTicking (200 * second)).run [host, publishMessage, idle, idle, publishMessage])
    ∧ ¬ OnePlace ((nodeTicking second).run [host, chunkArrives, publishMessage])
    ∧ ¬ OnePlace ((nodeTicking second).run [chunkArrives]) := by
  refine ⟨fun h => ?_, fun h => ?_, fun h => ?_⟩
  · exact h.live_tombstone "c" "m" (by decide +kernel) (by decide +kernel)
  · exact h.live_parked "c" "m" (by decide +kernel) (by decide +kernel)
  · exact absurd (h.parked_hosted ("c", "m") (by decide +kernel)) (by decide +kernel)

end OneShard

end Engine

end Ethp2p
