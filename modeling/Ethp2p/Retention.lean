/-
# Ethp2p.Retention — nothing is retained for long.

What an engine remembers of a message carries a time: when the session was created, when it was finished, when
it was buried, when a chunk was parked (`Stamp`).  A new stamp is a reading of the clock taken in the step that
leaves it (`Since`), and it goes only in a sweep.

A sweep runs only when an event is processed, and only when the interval has elapsed since the last one.  Right
after a sweep no stamp is older than its allowance, and what comes until the next one adds stamps of its own time;
so after an event no stamp is older than its allowance and the interval (`run_retained`).
-/
import Ethp2p.Receiving

namespace Ethp2p

/-- What an engine remembers with a time. -/
inductive Stamp where
  | created (k : SessionKey)
  | finished (k : SessionKey)
  | buried (k : SessionKey)
  | parked (k : SessionKey) (chunkId : Nat) (payload : Bytes)

/-- How old a sweep lets a stamp get. -/
def EngineConfig.allowance (config : EngineConfig) : Stamp → Duration
  | .created _ => config.activeSessionTtl
  | .finished _ => config.reconstructedLinger
  | .buried _ => config.tombstoneTtl
  | .parked .. => parkedChunkTtl

/-- The input can leave the stamp. -/
def Input.Leaves (i : Input RsStrategy) : Stamp → Prop
  | .created k => (∃ strategy preamble, i = .publish k.1 k.2 strategy preamble)
      ∨ ∃ peer preamble update, i = .event (.sessionOpen peer k.1 k.2 preamble update)
  | .finished k => i.feeds k.1 k.2
  | .buried _ => ∃ ev, i = .event ev
  | .parked k chunkId payload => ∃ peer, i = .event (.chunk peer k.1 k.2 chunkId payload)

namespace Engine

/-! ## The schedule -/

section Schedule

variable {N : Type} [Net N] (e : Engine RsStrategy N) (c : ChannelId) (m : MessageId)

/-- Nothing but a sweep moves the next sweep; the rest of the engine leaves it, function by function. -/
theorem nextCleanup_send (msg : NetSend) : (e.send msg).2.nextCleanup = e.nextCleanup := by
  rw [send_eq]

theorem nextCleanup_sendEach (msgs : List NetSend) : (sendEach msgs e).2.nextCleanup = e.nextCleanup := by
  induction msgs generalizing e with
  | nil => rfl
  | cons msg msgs ih =>
    have hsend := e.nextCleanup_send msg
    unfold sendEach
    rcases h : e.send msg with ⟨err | _, e₁⟩ <;> rw [h] at hsend
    · exact hsend
    · exact (ih e₁).trans hsend

theorem nextCleanup_register (peer : PeerId) :
    (e.registerPeerAndHandshake peer).2.nextCleanup = e.nextCleanup := by
  unfold registerPeerAndHandshake
  split
  · rfl
  · exact nextCleanup_send _ _

omit [Net N] in
theorem nextCleanup_recordSessionCreated :
    (e.recordSessionCreated c m).nextCleanup = e.nextCleanup := by
  obtain ⟨clock, sessionMeta, hrecord⟩ := e.recordSessionCreated_frame c m
  rw [hrecord]

theorem nextCleanup_openEach (peers : List PeerId) :
    (openEach c m peers e).2.nextCleanup = e.nextCleanup := by
  induction peers generalizing e with
  | nil => rfl
  | cons peer peers ih =>
    have hopen : (e.ensureSessionOpen c m peer).2.nextCleanup = e.nextCleanup := by
      unfold ensureSessionOpen
      split
      · rfl
      · cases e.sessionPreambles[(c, m)]? with
        | none => rfl
        | some preamble =>
          have hsend := e.nextCleanup_send (.sessionOpen peer c m preamble [])
          dsimp only
          rcases h : e.send (.sessionOpen peer c m preamble []) with ⟨err | _, e₁⟩ <;> rw [h] at hsend <;>
            exact hsend
    unfold openEach
    rcases h : e.ensureSessionOpen c m peer with ⟨err | _, e₁⟩ <;> rw [h] at hopen
    · exact hopen
    · exact (ih e₁).trans hopen

variable [Crates]

theorem nextCleanup_drainSession : (e.drainSession c m).2.nextCleanup = e.nextCleanup :=
  (drainSession_steps e c m).frame.nextCleanup_eq

theorem nextCleanup_drainChannel : (e.drainChannel c).2.nextCleanup = e.nextCleanup := by
  have hdrain : ∀ (ms : List MessageId) (e : Engine RsStrategy N),
      (drainEach c ms e).2.nextCleanup = e.nextCleanup := by
    intro ms
    induction ms with
    | nil => exact fun e => rfl
    | cons m ms ih =>
      intro e
      have hone := e.nextCleanup_drainSession c m
      unfold drainEach
      rcases h : e.drainSession c m with ⟨err | _, e₁⟩ <;> rw [h] at hone
      · exact hone
      · exact (ih e₁).trans hone
  unfold drainChannel
  cases e.channels[c]? with
  | none => rfl
  | some ch => exact hdrain _ _

theorem nextCleanup_enrolEach (peer : PeerId) (cs : List ChannelId) :
    (enrolEach peer cs e).nextCleanup = e.nextCleanup := by
  induction cs generalizing e with
  | nil => rfl
  | cons c cs ih => exact (ih _).trans (nextCleanup_drainChannel _ _)

theorem nextCleanup_afterReplay : (e.afterReplay c m).2.nextCleanup = e.nextCleanup := by
  have hreplay : ∀ (parked : List ParkedChunk) (any : Bool) (e : Engine RsStrategy N),
      (replayEach c m parked any e).2.nextCleanup = e.nextCleanup := by
    intro parked
    induction parked with
    | nil => exact fun _ _ => rfl
    | cons chunk parked ih =>
      intro any e
      unfold replayEach
      dsimp only
      rw [ih, takeChunk_eq]
      rfl
  unfold afterReplay
  cases e.parkedChunks[(c, m)]? with
  | none => rfl
  | some parked => exact (nextCleanup_drainSession _ _ _).trans (hreplay _ _ _)

theorem nextCleanup_publish (strategy : RsStrategy) (preamble : Bytes) :
    (e.publish c m strategy preamble).2.nextCleanup = e.nextCleanup := by
  cases hch : e.channels[c]? with
  | none => simp only [publish, hch]
  | some ch =>
    rcases hstart : ch.startOriginSession m strategy with ⟨err | _, ch'⟩
    · simp only [publish, hch, hstart]
    · rw [publish_of_start hch hstart]
      have hrelay : (e.withRelay c m preamble ch').nextCleanup = e.nextCleanup :=
        nextCleanup_recordSessionCreated _ c m
      have hopen := nextCleanup_openEach (e.withRelay c m preamble ch') c m ch'.subscribers.toList
      rcases h : openEach c m ch'.subscribers.toList (e.withRelay c m preamble ch') with ⟨err | _, e₁⟩ <;>
        rw [h] at hopen
      · exact hopen.trans hrelay
      · exact (nextCleanup_drainSession e₁ c m).trans (hopen.trans hrelay)

/-- Up to its decode a step leaves the schedule alone. -/
theorem nextCleanup_beforeDecode (i : Input RsStrategy) : (e.beforeDecode i).2.nextCleanup = e.nextCleanup := by
  -- no operation before the decode reaches the sweep, which alone sets `next_cleanup`
  cases i with
  | subscribe c factory =>
    show (e.subscribe c factory).2.nextCleanup = _
    unfold subscribe
    dsimp only
    rw [nextCleanup_sendEach]
    split <;> rfl
  | connect peer => exact e.nextCleanup_register peer
  | publish c m strategy preamble => exact e.nextCleanup_publish c m strategy preamble
  | recv => rfl
  | event ev =>
    cases ev with
    | handshake peer version channels =>
      show (if version = protocolVersion then enrolEach peer channels _ else _).nextCleanup = _
      split
      · exact nextCleanup_enrolEach _ _ _
      · rfl
    | subscribe peer c => exact nextCleanup_drainChannel _ _
    | sessionOpen _ c m preamble =>
      show (e.afterOpen c m preamble).2.nextCleanup = _
      unfold afterOpen
      split
      · rfl
      · cases e.channels[c]? with
        | none => rfl
        | some ch =>
          rcases hopen : ch.openSession m preamble with ⟨err | _, ch'⟩
          · simp only [hopen]
          · simp only [hopen]
            rw [nextCleanup_afterReplay, nextCleanup_drainSession, nextCleanup_recordSessionCreated]
    | chunk _ c m chunkId payload =>
      show (e.afterChunk c m chunkId payload).2.nextCleanup = _
      unfold afterChunk
      split
      · rfl
      · split
        · rfl
        · dsimp only
          rw [nextCleanup_drainSession, takeChunk_eq]
          rfl
    | peerConnected peer => exact e.nextCleanup_register peer
    | chunkSendResult peer c m token ok =>
      show (e.resolveChunkSend peer c m token ok).nextCleanup = _
      unfold resolveChunkSend
      split
      · exact nextCleanup_drainSession _ _ _
      · rfl
    | unsubscribe | routingUpdate | peerDisconnected | peerReconstructed | sessionClosed => rfl

/-- Up to its cleanup check a step leaves the schedule alone. -/
theorem nextCleanup_beforeSweep (i : Input RsStrategy) : (e.beforeSweep i).nextCleanup = e.nextCleanup := by
  have hbefore := e.nextCleanup_beforeDecode i
  unfold beforeSweep
  rcases h : e.beforeDecode i with ⟨_ | k, e₁⟩ <;> rw [h] at hbefore
  · exact hbefore
  · refine Eq.trans ?_ hbefore
    have hdecode : ∀ s, (e₁.afterDecode k.1 k.2 s).nextCleanup = e₁.nextCleanup := by
      intro s
      obtain ⟨clock, sessionMeta, delivered, heq, -⟩ := e₁.afterDecode_eq k.1 k.2 s
      rw [heq]
      rfl
    dsimp only
    rw [maybeDecodeAndDeliver_eq]
    cases e₁.session? k.1 k.2 with
    | none => rfl
    | some s =>
      dsimp only
      cases s.decodeAndFinish.1 <;> exact hdecode s

end Schedule

/-! ## Stamps -/

/-- The engine holds the stamp, of this time. -/
def Held {N : Type} (e : Engine RsStrategy N) (a : Instant) : Stamp → Prop
  | .created k => ∃ info, e.sessionMeta[k]? = some info ∧ info.createdAt = a
  | .finished k => ∃ info, e.sessionMeta[k]? = some info ∧ info.terminalAt = some a
  | .buried k => e.tombstones[k]? = some a
  | .parked k chunkId payload => ∃ buf, e.parkedChunks[k]? = some buf ∧ ⟨chunkId, payload, a⟩ ∈ buf

/-- What is held now and was not held before was left by the input, at a reading taken since. -/
structure Since {N : Type} (i : Input RsStrategy) (e e' : Engine RsStrategy N) : Prop where
  lasting : Lasting e e'
  held : ∀ a s, e'.Held a s → e.Held a s
    ∨ i.Leaves s ∧ ∃ n, e.clock.calls ≤ n ∧ n < e'.clock.calls ∧ a = e.clock.reading n

section Stamps

variable {i : Input RsStrategy} {D : Terms Wire} {e e' e'' : Engine RsStrategy Wire} {c : ChannelId}
  {m : MessageId}

/-- What an input left in two parts of its step. -/
theorem Since.trans (h : Since i e e') (h' : Since i e' e'') : Since i e e'' := by
  have hlater := h.lasting.2
  have hlater' := h'.lasting.2
  refine ⟨h.lasting.trans h'.lasting, fun a s hheld => ?_⟩
  rcases h'.held a s hheld with hheld | ⟨hleaves, n, hle, hlt, rfl⟩
  · rcases h.held a s hheld with hheld | ⟨hleaves, n, hle, hlt, rfl⟩
    · exact .inl hheld
    · exact .inr ⟨hleaves, n, hle, hlt.trans_le hlater'.2, rfl⟩
  · exact .inr ⟨hleaves, n, hlater.2.trans hle, hlt, by rw [hlater.1]⟩

/-- What forgets at most leaves nothing. -/
theorem Since.forgetting (hlasting : Lasting e e') (hheld : ∀ a s, e'.Held a s → e.Held a s) : Since i e e' :=
  ⟨hlasting, fun a s h => .inl (hheld a s h)⟩

/-- A part of a step that leaves the records, the tombstones and the parked chunks. -/
theorem Since.same (hlasting : Lasting e e') (hmeta : e'.sessionMeta = e.sessionMeta)
    (htomb : e'.tombstones = e.tombstones) (hparked : e'.parkedChunks = e.parkedChunks) : Since i e e' := by
  refine .forgetting hlasting fun a s h => ?_
  cases s with
  | created k | finished k =>
    obtain ⟨info, hinfo, hat⟩ := h
    exact ⟨info, hmeta ▸ hinfo, hat⟩
  | buried k =>
    show e.tombstones[k]? = some a
    rw [← htomb]
    exact h
  | parked k chunkId payload =>
    obtain ⟨buf, hbuf, hmem⟩ := h
    exact ⟨buf, hparked ▸ hbuf, hmem⟩

/-- A record is dated by the read of the clock that its input made. -/
theorem recordSessionCreated_since (hleaves : i.Leaves (.created (c, m))) :
    Since i e (e.recordSessionCreated c m) := by
  refine ⟨e.recordSessionCreated_lasting c m, fun a s hheld => ?_⟩
  unfold recordSessionCreated at hheld ⊢
  split at hheld
  case isTrue => exact .inl hheld
  case isFalse hnew =>
    rw [if_neg hnew]
    have hget : ∀ k, (e.sessionMeta.insert (c, m) ⟨e.now.1, none⟩)[k]?
        = if (c, m) = k then some ⟨e.now.1, none⟩ else e.sessionMeta[k]? :=
      fun k => BTreeMap.get_insert _ _ _ _
    cases s with
    | created k =>
      obtain ⟨info, hinfo, hat⟩ := hheld
      have hinfo' := (hget k).symm.trans hinfo
      split at hinfo'
      case isTrue hk =>
        obtain rfl := Option.some.inj hinfo'
        refine .inr ⟨hk ▸ hleaves, e.clock.calls, le_rfl, Nat.lt_succ_self _, hat.symm⟩
      case isFalse => exact .inl ⟨info, hinfo', hat⟩
    | finished k =>
      obtain ⟨info, hinfo, hat⟩ := hheld
      have hinfo' := (hget k).symm.trans hinfo
      split at hinfo'
      · obtain rfl := Option.some.inj hinfo'
        cases hat
      · exact .inl ⟨info, hinfo', hat⟩
    | buried k => exact .inl hheld
    | parked k chunkId payload => exact .inl hheld

/-- So is the record of a session that was just built. -/
theorem withRelay_since (hleaves : i.Leaves (.created (c, m))) (preamble : Bytes) (ch : Channel RsStrategy) :
    Since i e (e.withRelay c m preamble ch) := by
  have hput : Since i e { e with
      channels := e.channels.insert c ch
      sessionPreambles := e.sessionPreambles.insert (c, m) preamble } := .same (.refl rfl rfl) rfl rfl rfl
  exact hput.trans (recordSessionCreated_since hleaves)

/-- A session is marked by the input that fed it the last chunk. -/
theorem markSessionTerminal_since (hfeeds : i.feeds c m) : Since i e (e.markSessionTerminal c m) := by
  refine ⟨e.markSessionTerminal_lasting c m, fun a s hheld => ?_⟩
  -- the stamp is written only where a record has none yet
  cases hinfo₀ : e.sessionMeta[(c, m)]? with
  | none =>
    simp only [markSessionTerminal, hinfo₀] at hheld
    exact .inl hheld
  | some info₀ =>
    cases hterminal : info₀.terminalAt with
    | some t =>
      simp only [markSessionTerminal, hinfo₀, hterminal] at hheld
      exact .inl hheld
    | none =>
      simp only [markSessionTerminal, hinfo₀, hterminal] at hheld ⊢
      have hget : ∀ k, (e.sessionMeta.insert (c, m) { info₀ with terminalAt := some e.now.1 })[k]?
          = if (c, m) = k then some { info₀ with terminalAt := some e.now.1 } else e.sessionMeta[k]? :=
        fun k => BTreeMap.get_insert _ _ _ _
      cases s with
      | created k =>
        obtain ⟨info, hinfo, hat⟩ := hheld
        have hinfo' := (hget k).symm.trans hinfo
        split at hinfo'
        case isTrue hk =>
          obtain rfl := Option.some.inj hinfo'
          exact .inl ⟨info₀, hk ▸ hinfo₀, hat⟩
        case isFalse => exact .inl ⟨info, hinfo', hat⟩
      -- a stamp that was not there before is this one, set by this step
      | finished k =>
        obtain ⟨info, hinfo, hat⟩ := hheld
        have hinfo' := (hget k).symm.trans hinfo
        split at hinfo'
        case isTrue hk =>
          obtain rfl := Option.some.inj hinfo'
          subst hk
          exact .inr ⟨hfeeds, e.clock.calls, le_rfl, Nat.lt_succ_self _, (Option.some.inj hat).symm⟩
        case isFalse => exact .inl ⟨info, hinfo', hat⟩
      | buried k => exact .inl hheld
      | parked k chunkId payload => exact .inl hheld

/-- A chunk is parked by the input that brought it. -/
theorem parkChunk_since {peer : PeerId} {chunkId : Nat} {payload : Bytes}
    (hi : i = .event (.chunk peer c m chunkId payload)) : Since i e (e.parkChunk c m chunkId payload) := by
  refine ⟨⟨rfl, e.clock.later_now⟩, fun a s hheld => ?_⟩
  cases s with
  | created k | finished k | buried k => exact .inl hheld
  | parked k chunkId' payload' =>
    obtain ⟨buf, hbuf, hmem⟩ := hheld
    have hparked : (e.parkChunk c m chunkId payload).parkedChunks[k]? = _ :=
      congrArg Ledger.parked (e.ledger_parkChunk (k := k) c m chunkId payload)
    rw [hparked] at hbuf
    split at hbuf
    case isTrue hk =>
      subst hk
      obtain rfl := Option.some.inj hbuf
      rcases List.mem_append.mp hmem with hold | hnew
      · -- it was parked before, and was not the one that was dropped
        refine .inl ?_
        have hold' : (⟨chunkId', payload', a⟩ : ParkedChunk) ∈ (e.ledger (c, m)).parked.getD [] := by
          split at hold
          · exact List.mem_of_mem_tail hold
          · exact hold
        cases hbuf₀ : (e.ledger (c, m)).parked with
        | none =>
          rw [hbuf₀] at hold'
          cases hold'
        | some buf₀ =>
          rw [hbuf₀] at hold'
          exact ⟨buf₀, hbuf₀, hold'⟩
      · obtain ⟨rfl, rfl, rfl⟩ := ParkedChunk.mk.inj (List.mem_singleton.mp hnew)
        exact .inr ⟨⟨peer, hi⟩, e.clock.calls, le_rfl, Nat.lt_succ_self _, rfl⟩
    case isFalse => exact .inl ⟨buf, hbuf, hmem⟩

variable [Crates]

/-- **What a step does before it decodes** creates sessions and parks chunks. -/
theorem Act.since (h : Act i D e e') (hdecodes : ¬ D.decodes) (hsweeps : ¬ D.sweeps) : Since i e e' := by
  have hlasting := h.lasting
  -- only a created session and a parked chunk add a record; `decoded` and the sweep are left out
  cases h with
  | hosted | announced | registered | greeted | rejected | enrolled | unsubscribed | disconnected
  | refusedOpen | resolved | detached | ticked | scheduled | received =>
    exact .same hlasting rfl rfl rfl
  | @openedRelay peer c m preamble update ch ch' hi =>
    have hleaves : i.Leaves (.created (c, m)) := .inr ⟨peer, preamble, update, hi⟩
    exact withRelay_since hleaves preamble ch'
  | @startedOrigin c m strategy preamble ch ch' hi =>
    have hleaves : i.Leaves (.created (c, m)) := .inl ⟨strategy, preamble, hi⟩
    exact withRelay_since hleaves preamble ch'
  | @ensured c m peer hto =>
    have hframe := (ensureSessionOpen_steps e c m peer (.inl hto)).frame
    exact .same hlasting hframe.sessionMeta_eq hframe.tombstones_eq hframe.parkedChunks_eq
  | @drained c m =>
    have hframe := (drainSession_steps e c m).frame
    exact .same hlasting hframe.sessionMeta_eq hframe.tombstones_eq hframe.parkedChunks_eq
  | parked _ _ hi => exact parkChunk_since hi
  | @unparked c m =>
    refine .forgetting hlasting fun a s hheld => ?_
    cases s with
    | created k | finished k | buried k => exact hheld
    | parked k chunkId payload =>
      obtain ⟨buf, hbuf, hmem⟩ := hheld
      have hget : (e.parkedChunks.erase (c, m))[k]? = some buf := hbuf
      rw [BTreeMap.get_erase] at hget
      split at hget
      · cases hget
      · exact ⟨buf, hget, hmem⟩
  | took =>
    rw [takeChunk_eq] at hlasting ⊢
    exact .same hlasting rfl rfl rfl
  | decoded hyes => exact absurd hyes hdecodes
  | disposed hyes | swept hyes => exact absurd hyes hsweeps

/-- A decoding marks the session it decodes. -/
theorem maybeDecodeAndDeliver_since (hfeeds : i.feeds c m) : Since i e (e.maybeDecodeAndDeliver c m) := by
  have hdecode : ∀ s, Since i e (e.afterDecode c m s) := by
    intro s
    have hmodified : Since i e (e.modifySession c m fun _ => s.decodeAndFinish.2) :=
      .same (.refl rfl rfl) rfl rfl rfl
    refine (hmodified.trans (markSessionTerminal_since hfeeds)).trans ?_
    unfold afterDecode
    cases s.decodeAndFinish.1 <;> exact .same (.refl rfl rfl) rfl rfl rfl
  rw [maybeDecodeAndDeliver_eq]
  cases e.session? c m with
  | none => exact .same (.refl rfl rfl) rfl rfl rfl
  | some s =>
    dsimp only
    cases s.decodeAndFinish.1 with
    | error err => exact hdecode s
    | ok payload => exact (hdecode s).trans (.same (.refl rfl rfl) rfl rfl rfl)

/-- What a step goes on to decode was fed by its input. -/
theorem feeds_of_beforeDecode {k : SessionKey} (h : (e.beforeDecode i).1 = some k) : i.feeds k.1 k.2 := by
  cases i with
  | subscribe | connect | publish | recv => cases h
  | event ev =>
    cases ev with
    | sessionOpen _ c m preamble =>
      have hk : (if (e.afterOpen c m preamble).1 then some (c, m) else none) = some k := h
      split at hk
      · obtain rfl := Option.some.inj hk
        exact ⟨rfl, rfl⟩
      · cases hk
    | chunk _ c m chunkId payload =>
      have hk : (if (e.afterChunk c m chunkId payload).1 then some (c, m) else none) = some k := h
      split at hk
      · obtain rfl := Option.some.inj hk
        exact ⟨rfl, rfl⟩
      · cases hk
    | handshake | subscribe | unsubscribe | routingUpdate | peerDisconnected | peerConnected
    | chunkSendResult | peerReconstructed | sessionClosed => cases h

/-- **Up to its cleanup check** a step leaves stamps of its own time. -/
theorem beforeSweep_since (i : Input RsStrategy) (e : Engine RsStrategy Wire) : Since i e (e.beforeSweep i) := by
  have hhandled : Since i e (e.beforeDecode i).2 :=
    (beforeDecode_handling e i).induct (P := fun e' => Since i e e')
      (fun hact he => he.trans (hact.since id id)) (.same (.refl rfl rfl) rfl rfl rfl)
  unfold beforeSweep
  rcases h : e.beforeDecode i with ⟨_ | k, e₁⟩ <;> rw [h] at hhandled
  · exact hhandled
  · have hfeeds : i.feeds k.1 k.2 := feeds_of_beforeDecode (congrArg Prod.fst h)
    exact hhandled.trans (maybeDecodeAndDeliver_since hfeeds)

end Stamps

/-! ## Sweeps -/

section Sweeps

variable {e e' : Engine RsStrategy Wire} {i : Input RsStrategy} {a now τ : Instant} {s : Stamp}

/-- A sweep, seen from any key. -/
theorem ledger_swept (e : Engine RsStrategy Wire) (now : Instant) (k : SessionKey) :
    let L := if k ∈ e.expiredKeys now then (e.ledger k).dispose now else e.ledger k
    (e.runCleanup now).ledger k = { L with
      tombstone := L.tombstone.filter (now - · ≤ e.config.tombstoneTtl)
      parked := L.parked.bind (expireParked now) } := by
  intro L
  have hdispose := ledger_disposeEach (e.expiredKeys now) now e k
  obtain ⟨_, _, _, _, _, _, _, hframe⟩ := disposeEach_frame (e.expiredKeys now) now e
  have hconfig := congrArg Engine.config hframe
  have hsweep : e.runCleanup now = ((e.expiredKeys now).foldl
    (fun (e : Engine RsStrategy Wire) k => e.disposeSession k.1 k.2 now) e).afterSweep now := rfl
  rw [hsweep, ledger_afterSweep, hdispose, hconfig]

/-- A sweep leaves the configuration, the clock and its own schedule. -/
theorem runCleanup_settings (e : Engine RsStrategy Wire) (now : Instant) :
    (e.runCleanup now).config = e.config ∧ (e.runCleanup now).clock = e.clock
      ∧ (e.runCleanup now).nextCleanup = e.nextCleanup := by
  obtain ⟨_, _, _, _, _, _, _, hframe⟩ := disposeEach_frame (e.expiredKeys now) now e
  unfold runCleanup
  rw [hframe]
  exact ⟨rfl, rfl, rfl⟩

/-- What a sweep lets live has not expired. -/
theorem live_of_swept {k : SessionKey} {info : SessionMeta}
    (h : (e.runCleanup now).sessionMeta[k]? = some info) :
    e.sessionMeta[k]? = some info ∧ e.isExpired now info = false := by
  have hinfo : ((e.runCleanup now).ledger k).info = some info := h
  rw [ledger_swept] at hinfo
  by_cases hk : k ∈ e.expiredKeys now
  · simp only [if_pos hk] at hinfo
    cases hinfo
  · simp only [if_neg hk] at hinfo
    have hold : e.sessionMeta[k]? = some info := hinfo
    refine ⟨hold, Bool.eq_false_iff.mpr fun hexpired => hk ?_⟩
    exact mem_expiredKeys.mpr ⟨info, hold, hexpired⟩

/-- **After a sweep** no stamp is older than its allowance, and what is new is a tombstone of the sweep. -/
theorem held_runCleanup (h : (e.runCleanup now).Held a s) :
    (e.Held a s ∨ (∃ k, s = .buried k) ∧ a = now) ∧ now - a ≤ e.config.allowance s := by
  -- each kind of record is dropped once it is past its own limit
  cases s with
  | created k =>
    obtain ⟨info, hinfo, rfl⟩ := h
    obtain ⟨hold, hlive⟩ := live_of_swept hinfo
    refine ⟨.inl ⟨info, hold, rfl⟩, ?_⟩
    simp only [isExpired, Bool.or_eq_false_iff, decide_eq_false_iff_not, gt_iff_lt, Nat.not_lt] at hlive
    exact hlive.1
  | finished k =>
    obtain ⟨info, hinfo, hat⟩ := h
    obtain ⟨hold, hlive⟩ := live_of_swept hinfo
    refine ⟨.inl ⟨info, hold, hat⟩, ?_⟩
    simp only [isExpired, Bool.or_eq_false_iff, hat, Option.any_some, decide_eq_false_iff_not, gt_iff_lt,
      Nat.not_lt] at hlive
    exact hlive.2
  | buried k =>
    have htomb : ((e.runCleanup now).ledger k).tombstone = some a := h
    rw [ledger_swept] at htomb
    obtain ⟨hsome, hyoung⟩ := Option.filter_eq_some_iff.mp htomb
    refine ⟨?_, of_decide_eq_true hyoung⟩
    split at hsome
    · exact .inr ⟨⟨k, rfl⟩, (Option.some.inj hsome).symm⟩
    · exact .inl hsome
  | parked k chunkId payload =>
    obtain ⟨buf, hbuf, hmem⟩ := h
    have hparked : ((e.runCleanup now).ledger k).parked = some buf := hbuf
    rw [ledger_swept] at hparked
    obtain ⟨buf₀, hsome, hexpire⟩ := Option.bind_eq_some_iff.mp hparked
    obtain ⟨hfilter, -⟩ := Option.filter_eq_some_iff.mp hexpire
    obtain rfl := Option.some.inj hfilter
    obtain ⟨hmem₀, hyoung⟩ := List.mem_filter.mp hmem
    refine ⟨?_, of_decide_eq_true hyoung⟩
    split at hsome
    · cases hsome
    · exact .inl ⟨buf₀, hsome, hmem₀⟩

/-- **The cleanup check** leaves tombstones of its own time. -/
theorem maybeRunCleanup_since (ev : NetEvent) (e : Engine RsStrategy Wire) :
    Since (.event ev) e e.maybeRunCleanup := by
  have hclock := e.maybeRunCleanup_clock
  have hconfig : e.maybeRunCleanup.config = e.config := by
    unfold maybeRunCleanup
    dsimp only
    split
    · rfl
    · exact (runCleanup_settings _ _).1
  refine ⟨⟨hconfig, hclock ▸ e.clock.later_now⟩, fun a s hheld => ?_⟩
  unfold maybeRunCleanup at hheld
  dsimp only at hheld
  split at hheld
  · exact .inl hheld
  · rcases (held_runCleanup hheld).1 with hold | ⟨⟨k, rfl⟩, rfl⟩
    · exact .inl hold
    · refine .inr ⟨⟨ev, rfl⟩, e.clock.calls, le_rfl, ?_, rfl⟩
      rw [hclock]
      exact Nat.lt_succ_self _

variable [Crates]

/-- **A step leaves stamps of its own time.** -/
theorem step_since (i : Input RsStrategy) (e : Engine RsStrategy Wire) : Since i e (e.step i).2 := by
  have hbefore := beforeSweep_since i e
  rw [step_eq]
  cases i with
  | event ev => exact hbefore.trans (maybeRunCleanup_since ev _)
  | subscribe | connect | publish | recv => exact hbefore

/-! ## Runs -/

/-- The last sweep was at `τ`: no stamp was older than its allowance then, and the next one is due an interval
later. -/
structure SweptAt (τ : Instant) (e : Engine RsStrategy Wire) : Prop where
  recent : ∀ a s, e.Held a s → τ - a ≤ e.config.allowance s
  next : e.nextCleanup = τ + e.config.cleanupInterval
  past : ∃ n, n < e.clock.calls ∧ τ = e.clock.reading n

/-- Up to the cleanup check everything stays as recent as it was. -/
theorem SweptAt.beforeSweep (h : e.SweptAt τ) (hmono : Monotone e.clock.reading) (i : Input RsStrategy) :
    (e.beforeSweep i).SweptAt τ := by
  have hsince := beforeSweep_since i e
  obtain ⟨hconfig, hreading, hcalls⟩ := hsince.lasting
  obtain ⟨n, hn, hτ⟩ := h.past
  refine ⟨fun a s hheld => ?_, ?_, n, hn.trans_le hcalls, by rw [hreading, hτ]⟩
  · rw [hconfig]
    rcases hsince.held a s hheld with hold | ⟨-, n', hle, -, rfl⟩
    · exact h.recent a s hold
    · have hlater : τ ≤ e.clock.reading n' := hτ ▸ hmono (hn.le.trans hle)
      rw [Nat.sub_eq_zero_of_le hlater]
      exact Nat.zero_le _
  · rw [nextCleanup_beforeSweep, hconfig]
    exact h.next

/-- After an event the last sweep is at most an interval ago. -/
theorem SweptAt.event (h : e.SweptAt τ) (hmono : Monotone e.clock.reading) (ev : NetEvent) :
    ∃ τ', (e.step (.event ev)).2.SweptAt τ'
      ∧ (e.step (.event ev)).2.clock.last ≤ τ' + e.config.cleanupInterval := by
  have hbefore := h.beforeSweep hmono (.event ev)
  have hconfig := (beforeSweep_since (.event ev) e).lasting.1
  rw [step_eq]
  generalize e.beforeSweep (.event ev) = e₁ at *
  have hlast : e₁.maybeRunCleanup.clock.last = e₁.clock.time := by
    rw [maybeRunCleanup_clock]
    rfl
  rw [hlast, ← hconfig]
  unfold maybeRunCleanup
  dsimp only
  split
  case isTrue hearly =>
    obtain ⟨n, hn, hτ⟩ := hbefore.past
    refine ⟨τ, ⟨hbefore.recent, hbefore.next, n, hn.trans (Nat.lt_succ_self _), hτ⟩, ?_⟩
    exact hbefore.next ▸ Nat.le_of_lt hearly
  case isFalse =>
    obtain ⟨hsame, hclock, hnext⟩ := runCleanup_settings
      { e₁.now.2 with nextCleanup := e₁.now.1 + e₁.now.2.config.cleanupInterval } e₁.now.1
    refine ⟨e₁.now.1, ⟨fun a s hheld => ?_, ?_, e₁.clock.calls, ?_, ?_⟩, Nat.le_add_right _ _⟩
    · rw [hsame]
      exact (held_runCleanup hheld).2
    · rw [hsame, hnext]
    · rw [hclock]
      exact Nat.lt_succ_self _
    · rw [hclock]
      rfl

/-- The schedule is kept in every run. -/
theorem SweptAt.run (h : e.SweptAt τ) (hmono : Monotone e.clock.reading) (inputs : List (Input RsStrategy)) :
    ∃ τ', (e.run inputs).SweptAt τ' := by
  induction inputs using List.reverseRecOn with
  | nil => exact ⟨τ, h⟩
  | append_singleton inputs i ih =>
    obtain ⟨τ', hswept⟩ := ih
    have hmono' : Monotone (e.run inputs).clock.reading := by rwa [(run_lasting e inputs).2.1]
    rw [run_concat]
    cases i with
    | event ev =>
      obtain ⟨τ'', hnext, -⟩ := hswept.event hmono' ev
      exact ⟨τ'', hnext⟩
    | subscribe | connect | publish | recv =>
      rw [step_eq]
      exact ⟨τ', hswept.beforeSweep hmono' _⟩

/-- **Where a stamp is from**: an input of the run left it, at a reading taken in that step. -/
theorem run_held (hnone : ∀ a s, ¬ e.Held a s) (inputs : List (Input RsStrategy))
    (h : (e.run inputs).Held a s) :
    ∃ before i after, inputs = before ++ i :: after ∧ i.Leaves s
      ∧ ∃ n, (e.run before).clock.calls ≤ n ∧ n < (e.run (before ++ [i])).clock.calls
        ∧ a = e.clock.reading n := by
  induction inputs using List.reverseRecOn with
  | nil => exact absurd h (hnone a s)
  | append_singleton inputs i ih =>
    rw [run_concat] at h
    rcases (step_since i (e.run inputs)).held a s h with hold | ⟨hleaves, n, hle, hlt, hat⟩
    · obtain ⟨before, j, after, hsplit, hleaves, hread⟩ := ih hold
      exact ⟨before, j, after ++ [i], by simp [hsplit], hleaves, hread⟩
    · rw [← run_concat] at hlt
      rw [(run_lasting e inputs).2.1] at hat
      exact ⟨inputs, i, [], rfl, hleaves, n, hle, hlt, hat⟩

/-- **Bounded retention.**  In every run of an engine whose clock never goes back, right after an event: a
session, a preamble, a record of opens and a pending send all belong to a message whose creation time is held;
and whatever is held with a time was left by an input of the run at that time, and is older than its allowance by
at most the cleanup interval. -/
theorem run_retained (localPeer : PeerId) (net : Wire) (delivered : Sink) (config : EngineConfig)
    {clock : Clock} (hmono : Monotone clock.reading) (inputs : List (Input RsStrategy)) (ev : NetEvent) :
    let start := withConfig localPeer net delivered config clock
    let e := start.run (inputs ++ [.event ev])
    (∀ k : SessionKey, (e.session? k.1 k.2).isSome ∨ k ∈ e.sessionPreambles ∨ k ∈ e.openedTo
        ∨ (∃ token, (k.1, k.2, token) ∈ e.pendingSends) → ∃ a, e.Held a (.created k))
    ∧ ∀ a s, e.Held a s →
      e.clock.last - a ≤ config.allowance s + config.cleanupInterval
      ∧ ∃ before i after, inputs ++ [.event ev] = before ++ i :: after ∧ i.Leaves s
        ∧ ∃ n, (start.run before).clock.calls ≤ n ∧ n < (start.run (before ++ [i])).clock.calls
          ∧ a = clock.reading n := by
  intro start e
  have hnone : ∀ a s, ¬ start.Held a s := by
    intro a s h
    cases s with
    | created k | finished k | parked k =>
      obtain ⟨x, hx, -⟩ := h
      simp [start, withConfig] at hx
    | buried k =>
      have hx : start.tombstones[k]? = some a := h
      simp [start, withConfig] at hx
  -- nothing is held at the start, so the first sweep time bounds it
  have hstart : start.SweptAt clock.time :=
    ⟨fun a s h => absurd h (hnone a s), rfl, clock.calls, Nat.lt_succ_self _, rfl⟩
  obtain ⟨τ, hswept⟩ := hstart.run hmono inputs
  have hlasting := run_lasting start inputs
  obtain ⟨τ', hlast, hinterval⟩ := hswept.event (by rwa [hlasting.2.1]) ev
  rw [← run_concat] at hlast hinterval
  have hconfig : e.config = config := (run_lasting start (inputs ++ [.event ev])).1
  refine ⟨fun k hk => ?_, fun a s hheld => ⟨?_, run_held hnone _ hheld⟩⟩
  · have hbalanced := run_balanced localPeer net delivered config clock (inputs ++ [.event ev]) k
    -- each of the four maps has entries of live sessions only
    have hlive : (e.session? k.1 k.2).isSome := by
      rcases hk with hlive | hpre | hopened | ⟨token, hpending⟩
      · exact hlive
      · obtain ⟨b, hb⟩ := (BTreeMap.mem_iff_get _ _).mp hpre
        exact hbalanced.preamble_isSome.symm.trans (Option.isSome_of_eq_some hb)
      · obtain ⟨peers, hpeers⟩ := (BTreeMap.mem_iff_get _ _).mp hopened
        exact hbalanced.live_of_opened (Option.isSome_of_eq_some hpeers)
      · obtain ⟨peer, hpeer⟩ := (BTreeMap.mem_iff_get _ _).mp hpending
        exact hbalanced.live_of_pending token (Option.isSome_of_eq_some hpeer)
    obtain ⟨info, hinfo⟩ := Option.isSome_iff_exists.mp (hbalanced.info_isSome.trans hlive)
    exact ⟨info.createdAt, info, hinfo, rfl⟩
  -- at most its allowance at the last sweep, and an interval since
  · have hrecent := hlast.recent a s hheld
    have hdue : e.clock.last ≤ τ' + config.cleanupInterval := by
      rw [show (start.run inputs).config = config from hlasting.1] at hinterval
      exact hinterval
    rw [show (start.run (inputs ++ [.event ev])).config = config from hconfig] at hrecent
    calc e.clock.last - a ≤ τ' + config.cleanupInterval - a := Nat.sub_le_sub_right hdue a
      _ ≤ (τ' - a) + config.cleanupInterval := Nat.sub_le_iff_le_add.mpr (by omega)
      _ ≤ config.allowance s + config.cleanupInterval := Nat.add_le_add_right hrecent _

end Sweeps

section OneShard

attribute [local instance] oneShard

/-- A message is opened and completed. -/
def completedMessage : List (Input RsStrategy) :=
  openMessage ++ [.event (.chunk 0 "c" "m" 0 [1])]

/-- Its session was disposed of on the spot; an idle event later its tombstone is 200 seconds old. -/
theorem run_retained_buried :
    (slowNode.run (completedMessage ++ [.event (.routingUpdate 0 "c" "m" [])])).Held (800 * second) (.buried ("c", "m"))
    ∧ (slowNode.run (completedMessage ++ [.event (.routingUpdate 0 "c" "m" [])])).clock.last - 800 * second
      ≤ slowNode.config.tombstoneTtl + slowNode.config.cleanupInterval := by
  have hheld : (slowNode.run (completedMessage ++ [.event (.routingUpdate 0 "c" "m" [])])).Held (800 * second)
      (.buried ("c", "m")) := by
    show (slowNode.run (completedMessage ++ [.event (.routingUpdate 0 "c" "m" [])])).tombstones[("c", "m")]? = _
    decide +kernel
  refine ⟨hheld, ?_⟩
  exact ((run_retained 1 _ _ _ (fun a b h => Nat.mul_le_mul_right _ h) completedMessage
    (.routingUpdate 0 "c" "m" [])).2 _ _ hheld).1

end OneShard

end Engine

end Ethp2p
