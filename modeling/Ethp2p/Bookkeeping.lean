/-
# Ethp2p.Bookkeeping — the engine's maps agree with its sessions.

Six maps are keyed by the message.  `Ledger.Balanced` says that they speak of the live sessions and of
nothing else: every live session has its metadata and its preamble, and nothing is recorded as opened
or pending for a session that is not there.  It holds after every change of a ledger, so in every run.

`Ledger.TokensBelow` adds that what is pending was issued: its token is below the session's counter.  A
token gets there through the batch of a poll, and the counter is never lowered.  It is a 64-bit number that
wraps, so this holds as long as a session issues fewer than `2^64` tokens (`Session.Unwrapped`).
-/
import Ethp2p.Engine.Ledger
import Ethp2p.Strategy.Rs.OneShard

namespace Ethp2p

open Std

namespace Ledger

/-- The maps agree on whether the session is live. -/
structure Balanced (L : Ledger) : Prop where
  info_isSome : L.info.isSome = L.session.isSome
  preamble_isSome : L.preamble.isSome = L.session.isSome
  live_of_opened : L.openedTo.isSome → L.session.isSome
  live_of_pending : ∀ h, (L.pending h).isSome → L.session.isSome

variable {L L' : Ledger}

/-- A change that keeps the session, its metadata and its preamble, and forgets at most. -/
theorem Balanced.mono (h : L.Balanced) (hinfo : L'.info.isSome = L.info.isSome)
    (hpre : L'.preamble = L.preamble) (hsession : L'.session.isSome = L.session.isSome)
    (hopened : L'.openedTo.isSome → L.openedTo.isSome)
    (hpending : ∀ h, (L'.pending h).isSome → (L.pending h).isSome) : L'.Balanced where
  info_isSome := by rw [hinfo, hsession, h.info_isSome]
  preamble_isSome := by rw [hpre, hsession, h.preamble_isSome]
  live_of_opened ho := hsession ▸ h.live_of_opened (hopened ho)
  live_of_pending k hk := hsession ▸ h.live_of_pending k (hpending k hk)

end Ledger

section Balanced

variable [Crates] {A : Premises} {i : Input RsStrategy} {k : SessionKey} {L L' : Ledger}

/-- **Every change keeps the maps in agreement.** -/
theorem LedgerStep.balanced (h : LedgerStep A i k L L') (hL : L.Balanced) : L'.Balanced := by
  cases h with
  | submitted | hosted | openRefused | routed | abandoned | unparked | swept | parked =>
    exact hL.mono rfl rfl rfl id fun _ => id
  | enrolled | unsubscribed => exact hL.mono rfl rfl (by simp) id fun _ => id
  | disconnected =>
    refine hL.mono rfl rfl ?_ (by simp [Ledger.disconnect]) fun h hh => ?_
    · simp only [Ledger.disconnect]
      split <;> simp
    · simp only [Ledger.disconnect, Option.isSome_filter] at hh
      exact Option.isSome_of_any hh
  | created => exact ⟨rfl, rfl, fun _ => rfl, fun _ _ => rfl⟩
  | opened _ hpre =>
    have hlive : L.session.isSome := by rw [← hL.preamble_isSome, hpre]; rfl
    exact ⟨hL.info_isSome, hL.preamble_isSome, fun _ => hlive, hL.live_of_pending⟩
  | chunkAccepted hs =>
    have hlive : L.session.isSome := by rw [hs]; rfl
    exact ⟨hL.info_isSome, hL.preamble_isSome, fun _ => hlive, fun _ _ => hlive⟩
  | polled hs | chunkRefused hs | took _ hs | detached _ hs =>
    exact hL.mono rfl rfl (by simp [hs]) id fun _ => id
  | decoded _ hs => exact hL.mono (by simp) rfl (by simp [hs]) id fun _ => id
  | @resolved peer token ok =>
    refine hL.mono rfl rfl (by simp) id fun h hh => ?_
    by_cases hk : h = token
    · subst hk
      simp at hh
    · simpa [Function.update_of_ne hk] using hh
  | disposed => exact ⟨rfl, rfl, by simp [Ledger.dispose], by simp [Ledger.dispose]⟩

end Balanced

/-! ## Tokens -/

/-- Polling the session does not wrap its handle counter. -/
def Session.Unwrapped [Crates] (s : Session RsStrategy) : Prop :=
  s.strategy.nextHandle.toNat + s.poll.1.dispatches.length < 2 ^ 64

namespace RsStrategy

variable {s : RsStrategy}

/-- Without a wrap the counter after a poll is the sum. -/
theorem toNat_nextHandle_pollChunks (h : s.nextHandle.toNat + s.pollChunks.1.length < 2 ^ 64) :
    s.pollChunks.2.nextHandle.toNat = s.nextHandle.toNat + s.pollChunks.1.length := by
  rw [s.pollChunks_spec.nextHandle_eq, UInt64.toNat_add, UInt64.toNat_ofNat',
    Nat.mod_eq_of_lt (a := s.pollChunks.1.length) (by omega), Nat.mod_eq_of_lt h]

/-- Without a wrap the handles of a batch lie between the two counters. -/
theorem handle_lt_of_mem_pollChunks (h : s.nextHandle.toNat + s.pollChunks.1.length < 2 ^ 64)
    {d : ChunkDispatch Nat} (hd : d ∈ s.pollChunks.1) : d.handle < s.pollChunks.2.nextHandle := by
  have hmem : d.handle ∈ s.pollChunks.1.map (·.handle) := List.mem_map_of_mem hd
  rw [s.pollChunks_spec.handles_eq] at hmem
  obtain ⟨j, hj, hdj⟩ := List.mem_map.mp hmem
  have hj := List.mem_range.mp hj
  rw [UInt64.lt_iff_toNat_lt, toNat_nextHandle_pollChunks h, ← hdj, UInt64.toNat_add,
    UInt64.toNat_ofNat', Nat.mod_eq_of_lt (a := j) (by omega), Nat.mod_eq_of_lt (by omega)]
  omega

end RsStrategy

namespace Session

variable [Crates] {s : Session RsStrategy}

/-- Handles are counted up, as long as they do not wrap. -/
theorem poll_nextHandle_le (h : s.Unwrapped) :
    s.strategy.nextHandle ≤ s.poll.2.strategy.nextHandle := by
  have hroute : (s.strategy.pollRouting false).2.nextHandle = s.strategy.nextHandle := by
    rcases s.strategy.pollRouting_cases false with hr | hr <;> rw [hr]
  have heq := RsStrategy.toNat_nextHandle_pollChunks (s := (s.strategy.pollRouting false).2)
    (by rw [hroute]; exact h)
  rw [hroute] at heq
  rw [UInt64.le_iff_toNat_le]
  exact le_of_le_of_eq (Nat.le_add_right _ _) heq.symm

/-- The handles of a poll are behind the counter after it. -/
theorem handle_lt_of_mem_poll (h : s.Unwrapped) {d : ChunkDispatch Nat} (hd : d ∈ s.poll.1.dispatches) :
    d.handle < s.poll.2.strategy.nextHandle := by
  have hroute : (s.strategy.pollRouting false).2.nextHandle = s.strategy.nextHandle := by
    rcases s.strategy.pollRouting_cases false with hr | hr <;> rw [hr]
  exact RsStrategy.handle_lt_of_mem_pollChunks (s := (s.strategy.pollRouting false).2)
    (by rw [hroute]; exact h) hd

end Session

/-- What is polled and not submitted yet, or pending, was issued by the session. -/
structure Ledger.TokensBelow (L : Ledger) : Prop where
  unsent : ∀ s, L.session = some s → ∀ d ∈ L.unsent, d.handle < s.strategy.nextHandle
  pending : ∀ s, L.session = some s → ∀ h, (L.pending h).isSome → h < s.strategy.nextHandle

section Tokens

variable [Crates] {A : Premises} {i : Input RsStrategy} {k : SessionKey} {L L' : Ledger}

omit [Crates] in
/-- An operation on the session that does not lower the counter. -/
theorem Ledger.TokensBelow.session (hL : L.TokensBelow) {s s' : Session RsStrategy}
    (hs : L.session = some s) (hs' : L'.session = some s')
    (hle : s.strategy.nextHandle ≤ s'.strategy.nextHandle) (hunsent : L'.unsent ⊆ L.unsent)
    (hpending : ∀ h, (L'.pending h).isSome → (L.pending h).isSome) : L'.TokensBelow := by
  refine ⟨fun t ht d hd => ?_, fun t ht h hh => ?_⟩
  · obtain rfl := Option.some.inj (hs'.symm.trans ht)
    exact lt_of_lt_of_le (hL.unsent s hs d (hunsent hd)) hle
  · obtain rfl := Option.some.inj (hs'.symm.trans ht)
    exact lt_of_lt_of_le (hL.pending s hs h (hpending h hh)) hle

omit [Crates] in
/-- An operation on the session, if there is one. -/
theorem Ledger.TokensBelow.map (hL : L.TokensBelow) {f : Session RsStrategy → Session RsStrategy}
    (hs' : L'.session = L.session.map f) (hle : ∀ s, (f s).strategy.nextHandle = s.strategy.nextHandle)
    (hunsent : L'.unsent = L.unsent) (hpending : ∀ h, (L'.pending h).isSome → (L.pending h).isSome) :
    L'.TokensBelow := by
  cases hs : L.session with
  | none =>
    rw [hs, Option.map_none] at hs'
    exact ⟨by simp [hs'], by simp [hs']⟩
  | some s =>
    rw [hs, Option.map_some] at hs'
    exact hL.session hs hs' (le_of_eq (hle s).symm) (fun d hd => hunsent ▸ hd) hpending

/-- **Every change keeps the tokens below the counter**, if polls do not wrap it. -/
theorem LedgerStep.tokensBelow (h : LedgerStep A i k L L') (hpolls : ∀ s, A.polls s → s.Unwrapped)
    (hbalanced : L.Balanced) (hL : L.TokensBelow) : L'.TokensBelow := by
  cases h with
  | submitted | hosted | openRefused | opened | routed | unparked | swept | parked =>
    exact ⟨hL.unsent, hL.pending⟩
  | abandoned => exact ⟨by simp, hL.pending⟩
  | enrolled => exact hL.map rfl (fun _ => rfl) rfl fun _ => id
  | unsubscribed => exact hL.map rfl (fun _ => rfl) rfl fun _ => id
  | @disconnected p =>
    have hpending : ∀ h, ((L.disconnect p).pending h).isSome → (L.pending h).isSome := by
      intro h hh
      simp only [Ledger.disconnect, Option.isSome_filter] at hh
      exact Option.isSome_of_any hh
    by_cases hp : L.subscribers.any (p ∈ ·)
    · exact hL.map (f := (·.detachPeer p false)) (by simp only [Ledger.disconnect, if_pos hp])
        (fun _ => rfl) rfl hpending
    · refine hL.map (f := id) ?_ (fun _ => rfl) rfl hpending
      simp only [Ledger.disconnect, if_neg hp, Option.map_id_fun, id_eq]
  | created hnone _ _ _ hbatch =>
    -- nothing is left over from an earlier session of the key
    refine ⟨fun s _ d hd => ?_, fun s _ h hh => ?_⟩
    · rw [hbatch] at hd
      cases hd
    · have hlive := hbalanced.live_of_pending h hh
      rw [hnone] at hlive
      cases hlive
  | @chunkAccepted s d rest hs hd hopen hbatch =>
    refine ⟨fun t ht d' hd' => ?_, fun t ht h hh => ?_⟩
    · exact hL.unsent t ht d' (hbatch ▸ List.mem_cons_of_mem d hd')
    · by_cases hk : h = d.handle
      · subst hk
        exact hL.unsent t ht d (hbatch ▸ List.mem_cons_self)
      · simp only [Function.update_of_ne hk] at hh
        exact hL.pending t ht h hh
  | @polled s hs hP =>
    have hunwrapped := hpolls _ hP
    refine ⟨fun t ht d hd => ?_, fun t ht h hh => ?_⟩
    · obtain rfl := Option.some.inj ht
      exact Session.handle_lt_of_mem_poll hunwrapped hd
    · obtain rfl := Option.some.inj ht
      exact lt_of_lt_of_le (hL.pending s hs h hh) (Session.poll_nextHandle_le hunwrapped)
  | @chunkRefused s d rest err hs hd hopen hbatch =>
    refine hL.session hs rfl (le_of_eq (s.strategy.chunkSent_nextHandle _ _ _).symm) ?_ fun _ => id
    rw [hbatch]
    exact List.subset_cons_self d rest
  | @took s idx data hi hs =>
    obtain ⟨chunks, hchunks⟩ := s.takeChunk_chunks idx data
    refine hL.session hs rfl ?_ (List.Subset.refl _) fun _ => id
    rw [hchunks]
    exact UInt64.le_refl _
  | @decoded s now hdecodes hs =>
    refine hL.session hs rfl ?_ (List.Subset.refl _) fun _ => id
    exact le_of_eq (by rw [s.decodeAndFinish_strategy])
  | @resolved peer token ok =>
    refine hL.map rfl (fun s => s.strategy.chunkSent_nextHandle _ _ _) rfl fun h hh => ?_
    by_cases hk : h = token
    · subst hk
      simp at hh
    · simpa [Function.update_of_ne hk] using hh
  | @detached s p completed _ hs =>
    exact hL.session hs rfl (UInt64.le_refl _) (List.Subset.refl _) fun _ => id
  | disposed => exact ⟨by simp [Ledger.dispose], by simp [Ledger.dispose]⟩

end Tokens

/-! ## Runs -/

namespace Engine

variable {S N : Type}

/-- The keys of the live sessions, channel by channel. -/
def liveSessions (e : Engine S N) : List SessionKey :=
  e.channels.toList.flatMap fun entry => entry.2.sessions.keys.map (Prod.mk entry.1)

/-- The live sessions are those that are found. -/
theorem mem_liveSessions {e : Engine S N} {c : ChannelId} {m : MessageId} :
    (c, m) ∈ e.liveSessions ↔ (e.session? c m).isSome := by
  unfold liveSessions session?
  rw [List.mem_flatMap]
  constructor
  · rintro ⟨⟨c', ch⟩, hch, hm⟩
    obtain ⟨m', hm', heq⟩ := List.mem_map.mp hm
    cases heq
    rw [ExtTreeMap.mem_toList_iff_getElem?_eq_some.mp hch]
    exact ExtTreeMap.mem_iff_isSome_getElem?.mp (ExtTreeMap.mem_keys.mp hm')
  · intro hs
    obtain ⟨s, hs⟩ := Option.isSome_iff_exists.mp hs
    obtain ⟨ch, hch, hs⟩ := Option.bind_eq_some_iff.mp hs
    refine ⟨(c, ch), ExtTreeMap.mem_toList_iff_getElem?_eq_some.mpr hch, ?_⟩
    exact List.mem_map_of_mem (ExtTreeMap.mem_keys.mpr ((BTreeMap.mem_iff_get _ _).mpr ⟨s, hs⟩))

/-- No session is listed twice. -/
theorem nodup_liveSessions (e : Engine S N) : e.liveSessions.Nodup := by
  refine List.nodup_flatMap.mpr ⟨fun entry _ => ?_, ?_⟩
  · exact ExtTreeMap.nodup_keys.map fun _ _ h => (Prod.mk.inj h).2
  · refine e.channels.ordered_keys_toList.imp fun {a b} hlt x hxa hxb => ?_
    obtain ⟨_, _, rfl⟩ := List.mem_map.mp hxa
    obtain ⟨_, _, heq⟩ := List.mem_map.mp hxb
    have hkeys : b.1 = a.1 := (Prod.mk.inj heq).1
    simp [hkeys] at hlt

/-- The maps speak of the live sessions and of nothing else. -/
structure Bookkept (e : Engine S N) : Prop where
  sessionMeta_iff : ∀ c m, (c, m) ∈ e.sessionMeta ↔ (e.session? c m).isSome
  sessionPreambles_iff : ∀ c m, (c, m) ∈ e.sessionPreambles ↔ (e.session? c m).isSome
  live_of_openedTo : ∀ c m, (c, m) ∈ e.openedTo → (e.session? c m).isSome
  live_of_pendingSends : ∀ c m h, (c, m, h) ∈ e.pendingSends → (e.session? c m).isSome
  activeSessionCount_eq : e.activeSessionCount = e.liveSessions.length

/-- No map mentions the message but the tombstones. -/
structure Forgotten (e : Engine S N) (c : ChannelId) (m : MessageId) : Prop where
  session : e.session? c m = none
  sessionMeta : (c, m) ∉ e.sessionMeta
  sessionPreambles : (c, m) ∉ e.sessionPreambles
  openedTo : (c, m) ∉ e.openedTo
  pendingSends : ∀ h, (c, m, h) ∉ e.pendingSends
  parkedChunks : (c, m) ∉ e.parkedChunks
  tombstone : (c, m) ∈ e.tombstones

/-- What is pending for a live session was issued by it. -/
def TokensIssued (e : Engine RsStrategy N) : Prop :=
  ∀ c m s h, e.session? c m = some s → (c, m, h) ∈ e.pendingSends → h < s.strategy.nextHandle

/-- The engine's maps, read off the ledgers. -/
theorem Bookkept.of_balanced {e : Engine RsStrategy Wire} (h : ∀ k, (e.ledger k).Balanced) :
    Bookkept e := by
  have hmeta : ∀ c m, (c, m) ∈ e.sessionMeta ↔ (e.session? c m).isSome := fun c m => by
    rw [ExtTreeMap.mem_iff_isSome_getElem?]
    exact Bool.eq_iff_iff.mp (h (c, m)).info_isSome
  refine ⟨hmeta, fun c m => ?_, fun c m hmem => ?_, fun c m t hmem => ?_, ?_⟩
  · rw [ExtTreeMap.mem_iff_isSome_getElem?]
    exact Bool.eq_iff_iff.mp (h (c, m)).preamble_isSome
  · exact (h (c, m)).live_of_opened (ExtTreeMap.mem_iff_isSome_getElem?.mp hmem)
  · exact (h (c, m)).live_of_pending t (ExtTreeMap.mem_iff_isSome_getElem?.mp hmem)
  · rw [activeSessionCount, ← ExtTreeMap.length_keys]
    refine ((List.perm_ext_iff_of_nodup ExtTreeMap.nodup_keys e.nodup_liveSessions).mpr ?_).length_eq
    rintro ⟨c, m⟩
    rw [ExtTreeMap.mem_keys, hmeta, mem_liveSessions]

/-- **A session that is disposed is forgotten**, but for its tombstone. -/
theorem disposeSession_forgotten (e : Engine RsStrategy Wire) (c : ChannelId) (m : MessageId)
    (now : Instant) : (e.disposeSession c m now).Forgotten c m := by
  have hledger := e.ledger_disposeSession (k := (c, m)) c m now
  rw [if_pos rfl] at hledger
  refine ⟨congrArg Ledger.session hledger, ?_, ?_, ?_, fun h => ?_, ?_, ?_⟩
  · exact BTreeMap.not_mem_of_get (congrArg Ledger.info hledger)
  · exact BTreeMap.not_mem_of_get (congrArg Ledger.preamble hledger)
  · exact BTreeMap.not_mem_of_get (congrArg Ledger.openedTo hledger)
  · exact BTreeMap.not_mem_of_get (congrFun (congrArg Ledger.pending hledger) h)
  · exact BTreeMap.not_mem_of_get (congrArg Ledger.parked hledger)
  · exact (BTreeMap.mem_iff_get _ _).mpr ⟨now, congrArg Ledger.tombstone hledger⟩

section Runs

variable [Crates]

/-- Every ledger balances in every reachable state. -/
theorem run_balanced (localPeer : PeerId) (net : Wire) (delivered : Sink) (config : EngineConfig)
    (clock : Clock) (inputs : List (Input RsStrategy)) (k : SessionKey) :
    (((withConfig localPeer net delivered config clock).run inputs).ledger k).Balanced := by
  refine run_ledger_induct _ inputs (fun hstep hL => hstep.balanced hL) ?_
  rw [ledger_withConfig]
  exact ⟨rfl, rfl, by simp, by simp⟩

/-- In a run whose polls do not wrap a handle counter, every pending token was issued. -/
theorem run_tokensBelow (localPeer : PeerId) (net : Wire) (delivered : Sink) (config : EngineConfig)
    (clock : Clock) (inputs : List (Input RsStrategy))
    (hpolls : (withConfig localPeer net delivered config clock).EachStep
      (StepPolls Session.Unwrapped) inputs) (k : SessionKey) :
    (((withConfig localPeer net delivered config clock).run inputs).ledger k).TokensBelow := by
  refine (hpolls.run (Q := fun e => (e.ledger k).Balanced ∧ (e.ledger k).TokensBelow)
    (fun e i _ hstep he => ?_) ?_).2
  · refine (step_ledger (A := ⟨Session.Unwrapped, False, True, True⟩) i e k False.elim hstep trivial
      trivial).induct (Q := fun L => L.Balanced ∧ L.TokensBelow) (fun h hL => ?_) he
    exact ⟨h.balanced hL.1, h.tokensBelow (fun _ => id) hL.1 hL.2⟩
  · rw [ledger_withConfig]
    exact ⟨⟨rfl, rfl, by simp, by simp⟩, ⟨by simp, by simp⟩⟩

/-- **Session bookkeeping agrees** in every run; a disposed session is forgotten by every map but the
tombstones; and what is pending was issued by the session, as long as a session has fewer than `2^64`
dispatches. -/
theorem run_bookkept (localPeer : PeerId) (net : Wire) (delivered : Sink) (config : EngineConfig)
    (clock : Clock) (inputs : List (Input RsStrategy)) :
    Bookkept ((withConfig localPeer net delivered config clock).run inputs)
    ∧ (∀ c m now, (((withConfig localPeer net delivered config clock).run inputs).disposeSession
        c m now).Forgotten c m)
    ∧ ((withConfig localPeer net delivered config clock).EachStep (StepPolls Session.Unwrapped) inputs →
      TokensIssued ((withConfig localPeer net delivered config clock).run inputs)) := by
  refine ⟨.of_balanced (run_balanced localPeer net delivered config clock inputs),
    fun c m now => disposeSession_forgotten _ c m now, fun hpolls c m s h hs hpending => ?_⟩
  exact (run_tokensBelow localPeer net delivered config clock inputs hpolls (c, m)).pending s
    hs h (ExtTreeMap.mem_iff_isSome_getElem?.mp hpending)

end Runs

section OneShard

attribute [local instance] oneShard

/-- A peer subscribes, and a message is published to it. -/
def publishToOne : List (Input RsStrategy) :=
  [.subscribe "c" (rsRelayFactory {} fun _ => 7), .event (.subscribe 1 "c"),
    .publish "c" "m" OneShard.origin (OneShard.preambleBytes OneShard.preamble)]

theorem publishToOne_valid : ∀ i ∈ publishToOne, i.Valid := by
  simp only [publishToOne, List.mem_cons, List.not_mem_nil, or_false]
  rintro i (rfl | rfl | rfl)
  · exact ⟨_, _, rfl⟩
  · trivial
  · exact ⟨_, _, _, OneShard.newOrigin_eq⟩

instance : DecidablePred Session.Unwrapped := fun s =>
  inferInstanceAs (Decidable (s.strategy.nextHandle.toNat + s.poll.1.dispatches.length < 2 ^ 64))

instance {P : Session RsStrategy → Prop} [DecidablePred P] (e : Engine RsStrategy Wire) (i : Input RsStrategy) :
    Decidable (e.StepPolls P i) :=
  inferInstanceAs (Decidable (∀ call ∈ e.drainCalls i,
    ∀ e' ∈ drainRounds call.2.1 call.2.2 (call.1.drainFuel call.2.1 call.2.2) call.1,
      ∀ s ∈ e'.session? call.2.1 call.2.2, P s))

/-- A publish to one peer issues both tokens that are pending for it. -/
theorem run_bookkept_publish :
    (nodeTicking 0).EachStep (StepPolls Session.Unwrapped) publishToOne
    ∧ TokensIssued ((nodeTicking 0).run publishToOne) := by
  have hpolls : (nodeTicking 0).EachStep (StepPolls Session.Unwrapped) publishToOne := by
    decide +kernel
  exact ⟨hpolls, (run_bookkept _ _ _ _ _ publishToOne).2.2 hpolls⟩

end OneShard

end Engine

end Ethp2p
