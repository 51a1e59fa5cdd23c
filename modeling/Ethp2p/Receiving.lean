/-
# Ethp2p.Receiving — one published message at one relay, event by event.

A relay that has never heard of a message holds nothing about it (`Ledger.Blank`).  The first
`SessionOpen` creates its session, and from then on the session is what `Ethp2p.Reconstruction` says of
one that was fed the chunks so far (`Publication.Fed`): it collects the shards, and with `num_data` of
them it has decoded the payload and offered it to the sink, once.

`Engine.Stands` says where a relay is after it has read a list of events: it still waits for its first
`SessionOpen`, or has collected the shards among the events (`Engine.Collects`).  There is one lemma for each
kind of step: a chunk of the message, a `SessionOpen` of it, everything else.

What could come between is a sweep.  Until a session of the publish has expired (`Engine.Within`) a sweep
disposes of the session only when its linger is over, so when its shards were enough; and its tombstone
stands as long.
-/
import Ethp2p.Parking
import Ethp2p.Agreement
import Ethp2p.Reconstruction
import Ethp2p.Subscriptions

namespace Ethp2p

/-- The input neither brings chunks or a `SessionOpen` of the key nor publishes under it. -/
def Input.Foreign (c : ChannelId) (m : MessageId) (i : Input RsStrategy) : Prop :=
  ¬ i.feeds c m ∧ ∀ strategy preamble, i ≠ .publish c m strategy preamble

/-! ## A session that is fed the message -/

section Fed

variable [Crates] {pub : Publication}

/-- The number of shards it takes to reconstruct the message. -/
def Publication.needed (pub : Publication) : Nat := asUsize pub.preamble.numData

/-- The session was fed these shards of the message, and decoded as soon as they were enough. -/
def Publication.Fed (pub : Publication) (D : Finset Nat) (s : Session RsStrategy) : Prop :=
  ∃ results, FeedInv pub.payload pub.preamble pub.shards pub.needed D (s, results)

variable {D : Finset Nat} {s s' : Session RsStrategy}

/-- Between two steps a session that is fed is not decoding. -/
theorem Publication.Fed.not_decoding (h : pub.Fed D s) : s.state ≠ .decoding := by
  obtain ⟨results, ⟨-, hstate, -⟩ | ⟨-, hstate, -⟩⟩ := h
  · exact fun hdecoding => by cases hstate.symm.trans hdecoding
  · exact fun hdecoding => by cases hstate.symm.trans hdecoding

/-- It is reconstructed exactly if it was fed enough shards. -/
theorem Publication.Fed.reconstructed_iff (h : pub.Fed D s) :
    s.state = .reconstructed ↔ pub.needed ≤ D.card := by
  obtain ⟨results, ⟨hcard, hstate, -⟩ | ⟨hcard, hstate, -⟩⟩ := h
  · refine iff_of_false (fun hdone => ?_) (Nat.not_le_of_lt hcard)
    cases hstate.symm.trans hdone
  · exact iff_of_true hstate hcard

/-- Only the state and the store count. -/
theorem Publication.Fed.alike (h : pub.Fed D s) (halike : s.Alike s') : pub.Fed D s' := by
  obtain ⟨results, ⟨hcard, hstate, hresults, hholds⟩ | ⟨hcard, hstate, hresults⟩⟩ := h
  · refine ⟨results, .inl ⟨hcard, halike.state_eq.trans hstate, hresults, ?_⟩⟩
    exact
      { preamble_eq := halike.store.preamble_eq.trans hholds.preamble_eq
        length_eq := (congrArg List.length halike.store.chunks_eq).trans hholds.length_eq
        chunkAt_eq := fun i => (halike.store.chunkAt_eq i).trans (hholds.chunkAt_eq i)
        subset := hholds.subset }
  · exact ⟨results, .inr ⟨hcard, halike.state_eq.trans hstate, hresults⟩⟩

/-- **One more chunk**: the session takes it into account, and the payload is offered to the sink exactly
when the chunk makes the shards enough. -/
theorem Publication.Fed.arrive (hsha : Sha256Len) (hrs : RsCorrect) {a : Account} (h : pub.Fed D a.session)
    (idx : Nat) (data : Bytes)
    (hcoll : ∀ b, pub.shards[idx]? = some b → sha256 data = sha256 b → data = b) {D' : Finset Nat}
    (hD' : D' = if pub.shards[idx]? = some data then insert idx D else D) :
    pub.Fed D' (a.arrive pub.c pub.m (idx, data)).session
    ∧ (a.arrive pub.c pub.m (idx, data)).delivered
      = if D.card < pub.needed ∧ pub.needed ≤ D'.card
        then (a.delivered.trySend ⟨pub.c, pub.m, pub.payload⟩).2 else a.delivered := by
  obtain ⟨k, m, chunkLen, henc⟩ := encode_ok pub.encoded
  have hneeded : pub.needed = k := henc.asUsize_numData
  obtain ⟨results, hinv⟩ := h
  rw [hneeded] at hinv
  have hnext := hinv.step henc hsha hrs idx data hcoll
  rw [← hD'] at hnext
  unfold Publication.Fed
  rw [hneeded]
  rcases hinv with ⟨hcard, hstate, rfl, -⟩ | ⟨hcard, hstate, hresults⟩
  · have hopen : a.session.state ≠ .decoding := fun h => by cases hstate.symm.trans h
    unfold Account.arrive
    simp only [feedStep] at hnext
    by_cases hdecoding : (a.session.takeChunk idx data).2.state = .decoding
    · -- the chunk completes the message
      have hcomplete : a.session.completes idx data = true := by
        by_contra hincomplete
        exact Session.takeChunk_incomplete (Bool.not_eq_true _ ▸ hincomplete) hopen hdecoding
      rw [if_pos hdecoding] at hnext
      rw [if_pos hcomplete]
      rcases hnext with ⟨-, -, hresults, -⟩ | ⟨henough, hdone, hresults⟩
      · cases hresults
      · have hpayload : (a.session.takeChunk idx data).2.decodeAndFinish.1 = .ok pub.payload :=
          List.singleton_injective hresults
        refine ⟨⟨_, .inr ⟨henough, hdone, hresults⟩⟩, ?_⟩
        rw [if_pos ⟨hcard, henough⟩]
        unfold Account.settle Account.take
        simp only [hpayload]
    · rw [if_neg hdecoding] at hnext
      rcases hnext with hfew | ⟨-, -, hresults⟩
      · have hnot : ¬ (D.card < k ∧ k ≤ D'.card) := fun h => Nat.not_lt_of_le h.2 hfew.1
        rw [if_neg hnot]
        split
        · rw [Account.settle_idle hdecoding]
          exact ⟨⟨_, .inl hfew⟩, rfl⟩
        · exact ⟨⟨_, .inl hfew⟩, rfl⟩
      · cases hresults
  · -- the session is done, and takes no chunk any more
    have hdone : a.session.state ≠ .consuming := fun h => by cases hstate.symm.trans h
    have hsame : a.arrive pub.c pub.m (idx, data) = a := by
      unfold Account.arrive
      rw [(Session.takeChunk_done hdone idx data).1, Account.take_done hdone]
      rfl
    have hmore : k ≤ D'.card := by
      refine hcard.trans (Finset.card_le_card ?_)
      rw [hD']
      split
      · exact Finset.subset_insert idx D
      · exact Finset.Subset.refl D
    rw [hsame, if_neg fun h => Nat.not_lt_of_le hcard h.1]
    exact ⟨⟨_, .inr ⟨hmore, hstate, hresults⟩⟩, rfl⟩

end Fed

/-! ## What is held about the message -/

section Ledger

variable [Crates]

/-- Nothing is held about the key, and nothing was submitted for it. -/
structure Ledger.Blank (k : SessionKey) (L : Ledger) : Prop where
  session : L.session = none
  info : L.info = none
  preamble : L.preamble = none
  openedTo : L.openedTo = none
  tombstone : L.tombstone = none
  parked : L.parked = none
  unsubmitted : ∀ sent ∈ L.log, sent.msg.sessionKey? ≠ some k

/-- The session was fed these shards of the message; no tombstone stands and no chunk is parked. -/
structure Ledger.Receives (pub : Publication) (D : Finset Nat) (L : Ledger) : Prop where
  session : ∃ s, L.session = some s ∧ pub.Fed D s
  tombstone : L.tombstone = none
  parked : L.parked = none

variable {A : Premises} {i : Input RsStrategy} {k : SessionKey} {L L' : Ledger} {pub : Publication}
  {D : Finset Nat}

/-- Without a sweep a foreign input leaves the ledger blank. -/
theorem LedgerStep.blank (h : LedgerStep A i k L L') (hsweeps : ¬ A.sweeps) (hi : i.Foreign k.1 k.2)
    (hL : L.Blank k) : L'.Blank k := by
  have hlive : ∀ s, L.session ≠ some s := fun s hs => by cases hL.session.symm.trans hs
  have hopen : ∀ preamble, L.preamble ≠ some preamble := fun b hb => by cases hL.preamble.symm.trans hb
  -- a blank ledger has nothing a step could act on; only an open or a publish starts one
  cases h with
  | hosted | abandoned => exact { hL with }
  | submitted hother =>
    refine { hL with unsubmitted := fun sent hsent => ?_ }
    rcases List.mem_append.mp hsent with hsent | hsent
    · exact hL.unsubmitted sent hsent
    · rwa [List.mem_singleton.mp hsent]
  | enrolled | unsubscribed | resolved => exact { hL with session := by simp only [hL.session]; rfl }
  | disconnected =>
    refine { hL with session := ?_, openedTo := ?_ }
    · simp only [Ledger.disconnect, hL.session]
      split <;> rfl
    · simp only [Ledger.disconnect, hL.openedTo]
      rfl
  | created _ _ hnew =>
    cases hnew with
    | relay hopens => exact absurd (by rw [hopens]; exact ⟨rfl, rfl⟩) hi.1
    | origin hpublish => exact absurd hpublish (hi.2 _ _)
  | openRefused _ hpre | opened _ hpre => exact absurd hpre (hopen _)
  | routed hsome =>
    rw [hL.session] at hsome
    cases hsome
  | polled hs | chunkAccepted hs | chunkRefused hs | took _ hs | decoded _ hs | detached _ hs =>
    exact absurd hs (hlive _)
  | parked hchunk => exact absurd (by rw [hchunk]; exact ⟨rfl, rfl⟩) hi.1
  | unparked => exact { hL with parked := rfl }
  | disposed hyes | swept hyes => exact absurd hyes hsweeps

/-- Without a sweep nothing but a chunk changes what the session was fed. -/
theorem LedgerStep.receives (h : LedgerStep A i k L L') (hsweeps : ¬ A.sweeps) (hi : ¬ i.feeds k.1 k.2)
    (hL : L.Receives pub D) : L'.Receives pub D := by
  obtain ⟨s, hs, hfed⟩ := hL.session
  have hmap : ∀ {f : Session RsStrategy → Session RsStrategy}, s.Alike (f s) →
      ∃ s', L.session.map f = some s' ∧ pub.Fed D s' := by
    intro f hf
    exact ⟨f s, by rw [hs]; rfl, hfed.alike hf⟩
  have hone : ∀ {s₀ s' : Session RsStrategy}, L.session = some s₀ → s₀.Alike s' →
      ∃ s, some s' = some s ∧ pub.Fed D s := by
    intro s₀ s' hs₀ halike
    obtain rfl := Option.some.inj (hs.symm.trans hs₀)
    exact ⟨s', rfl, hfed.alike halike⟩
  cases h with
  | submitted | hosted | openRefused | opened | routed | chunkAccepted | abandoned => exact { hL with }
  | enrolled => exact { hL with session := hmap ⟨rfl, s.strategy.attachPeer_sameStore _⟩ }
  | unsubscribed =>
    exact { hL with session := hmap ⟨rfl, s.strategy.detachPeer_sameStore _ false⟩ }
  | disconnected =>
    refine { hL with session := ?_ }
    simp only [Ledger.disconnect]
    split
    · exact hmap ⟨rfl, s.strategy.detachPeer_sameStore _ false⟩
    · exact hL.session
  | created hnone => cases hnone.symm.trans hs
  | @polled s₀ hs₀ =>
    exact { hL with session := hone hs₀ ⟨rfl, s₀.strategy.poll_sameStore⟩ }
  | @chunkRefused s₀ d _ _ hs₀ =>
    exact { hL with session := hone hs₀ ⟨rfl, s₀.strategy.chunkSent_sameStore _ _ _⟩ }
  | took hfeeds => exact absurd hfeeds hi
  | @decoded s₀ now _ hs₀ =>
    -- a session that is fed is decoded on the spot, so there is nothing to decode
    obtain rfl := Option.some.inj (hs.symm.trans hs₀)
    rw [Session.decodeAndFinish_idle hfed.not_decoding]
    exact { hL with session := ⟨s, rfl, hfed⟩ }
  | resolved => exact { hL with session := hmap ⟨rfl, s.strategy.chunkSent_sameStore _ _ _⟩ }
  | @detached s₀ p completed _ hs₀ =>
    exact { hL with session := hone hs₀ ⟨rfl, s₀.strategy.detachPeer_sameStore p completed⟩ }
  | parked _ _ hnone => cases hnone.symm.trans hs
  | unparked => exact { hL with parked := rfl }
  | disposed hyes | swept hyes => exact absurd hyes hsweeps

/-- Without a sweep a buried key stays buried. -/
theorem LedgerStep.buried (h : LedgerStep A i k L L') (hsweeps : ¬ A.sweeps)
    (hi : ∀ strategy preamble, i ≠ .publish k.1 k.2 strategy preamble) {at_ : Instant}
    (hL : L.session = none ∧ L.tombstone = some at_) : L'.session = none ∧ L'.tombstone = some at_ := by
  obtain ⟨hnone, htomb⟩ := hL
  have hdead : ∀ s, L.session ≠ some s := fun s hs => by cases hnone.symm.trans hs
  cases h with
  | submitted | hosted | openRefused | opened | routed | chunkAccepted | abandoned | unparked | parked =>
    exact ⟨hnone, htomb⟩
  | enrolled | unsubscribed | resolved => exact ⟨Option.map_eq_none_iff.mpr hnone, htomb⟩
  | disconnected =>
    refine ⟨?_, htomb⟩
    simp only [Ledger.disconnect]
    split
    · exact Option.map_eq_none_iff.mpr hnone
    · exact hnone
  | created _ _ hnew =>
    cases hnew with
    | relay _ hfree => cases hfree.symm.trans htomb
    | origin hpublish => exact absurd hpublish (hi _ _)
  | polled hs | chunkRefused hs | took _ hs | decoded _ hs | detached _ hs => exact absurd hs (hdead _)
  | disposed hyes | swept hyes => exact absurd hyes hsweeps

end Ledger

/-! ## Engines -/

namespace Engine

section Time

variable {N : Type} {e e' : Engine RsStrategy N} {t₀ : Instant} {k : SessionKey}

/-- The clock shows `t₀` or later, but not so late that a session of `t₀` has expired, and tombstones
stand at least as long. -/
structure Within (t₀ : Instant) (e : Engine RsStrategy N) : Prop where
  since : ∀ n, t₀ ≤ e.clock.reading n
  unexpired : ∀ n, e.clock.reading n ≤ t₀ + e.config.activeSessionTtl
  buried : e.config.activeSessionTtl ≤ e.config.tombstoneTtl

/-- The bounds are on all readings of the clock, and so hold later. -/
theorem Within.lasting (h : e.Within t₀) (hlasting : Lasting e e') : e'.Within t₀ := by
  obtain ⟨hconfig, hclock, -⟩ := hlasting
  exact ⟨hclock ▸ h.since, hconfig ▸ hclock ▸ h.unexpired, hconfig ▸ h.buried⟩

/-- The session of the key, if there is one, was created at `t₀` or later. -/
def Dated (t₀ : Instant) (k : SessionKey) (e : Engine RsStrategy N) : Prop :=
  ∀ info, e.sessionMeta[k]? = some info → t₀ ≤ info.createdAt

end Time

section Dates

variable {i : Input RsStrategy} {D : Terms Wire} {e e' : Engine RsStrategy Wire} {t₀ : Instant}
  {k : SessionKey}

/-- A session that was just built is dated from now. -/
theorem withRelay_dated (c : ChannelId) (m : MessageId) (preamble : Bytes) (ch : Channel RsStrategy)
    (hnow : ∀ n, t₀ ≤ e.clock.reading n) (he : e.Dated t₀ k) : (e.withRelay c m preamble ch).Dated t₀ k := by
  intro info hinfo
  have hget := sessionMeta_recordSessionCreated (k := k) { e with
    channels := e.channels.insert c ch
    sessionPreambles := e.sessionPreambles.insert (c, m) preamble } c m
  rw [withRelay, hget] at hinfo
  split at hinfo
  case isTrue hk =>
    obtain rfl := Option.some.inj hinfo
    cases hold : e.sessionMeta[(c, m)]? with
    | none => exact hnow _
    | some info => exact he info (hk ▸ hold)
  case isFalse => exact he info hinfo

variable [Crates]

/-- Every action keeps the dates: what it creates, it dates with a reading of the clock. -/
theorem Act.dated (h : Act i D e e') (hnow : ∀ n, t₀ ≤ e.clock.reading n) (he : e.Dated t₀ k) :
    e'.Dated t₀ k := by
  -- records are written at creation with the clock of the step, and only stamped after
  cases h with
  | hosted | announced | registered | greeted | rejected | enrolled | unsubscribed | disconnected
  | refusedOpen | parked | unparked | resolved | detached | swept | ticked | scheduled | received =>
    exact he
  | openedRelay | startedOrigin => exact withRelay_dated _ _ _ _ hnow he
  | @ensured c m peer hto =>
    unfold Dated
    rw [(ensureSessionOpen_steps e c m peer (.inl hto)).frame.sessionMeta_eq]
    exact he
  | @drained c m =>
    unfold Dated
    rw [(drainSession_steps e c m).frame.sessionMeta_eq]
    exact he
  | took =>
    rw [takeChunk_eq]
    exact he
  | @decoded c m session hdecodes hs =>
    intro info hinfo
    have hledger := congrArg Ledger.info (ledger_afterDecode (k := k) e c m session)
    have hinfo' := hledger.symm.trans hinfo
    dsimp only at hinfo'
    split at hinfo'
    · obtain ⟨old, hold, rfl⟩ := Option.map_eq_some_iff.mp hinfo'
      exact he old hold
    · exact he info hinfo'
  | @disposed c m now =>
    intro info hinfo
    have hget : (e.sessionMeta.erase (c, m))[k]? = some info := hinfo
    rw [BTreeMap.get_erase] at hget
    split at hget
    · cases hget
    · exact he info hget

/-- A step leaves every session dated. -/
theorem step_dated (hwithin : e.Within t₀) (he : e.Dated t₀ k) : (e.step i).2.Dated t₀ k :=
  ((step_acts i e).induct (P := fun e => e.Within t₀ ∧ e.Dated t₀ k)
    (fun hact he => ⟨he.1.lasting hact.lasting, hact.dated he.1.since he.2⟩) ⟨hwithin, he⟩).2

end Dates

/-! ## Sweeps -/

section Sweeps

variable {e : Engine RsStrategy Wire} {c : ChannelId} {m : MessageId}

/-- A session that the cleanup check disposes of has expired. -/
theorem expired_of_maybeRunCleanup (hlive : e.session? c m ≠ none)
    (hgone : e.maybeRunCleanup.session? c m = none) :
    ∃ info, e.sessionMeta[(c, m)]? = some info ∧ e.isExpired e.clock.time info := by
  unfold maybeRunCleanup at hgone
  dsimp only at hgone
  split at hgone
  · exact absurd hgone hlive
  · rcases ledger_runCleanup { e.now.2 with nextCleanup := e.now.1 + e.now.2.config.cleanupInterval }
      e.now.1 (c, m) with ⟨hexpired, -⟩ | hkept
    · exact mem_expiredKeys.mp hexpired
    · exact absurd ((congrArg Ledger.session hkept).symm.trans hgone) hlive

end Sweeps

/-! ## Steps of a relay -/

section Steps

variable [Crates] {pub : Publication} {i : Input RsStrategy} {e : Engine RsStrategy Wire}
  {t₀ : Instant} {D : Finset Nat}

/-- Up to its cleanup check a step is a sequence of changes that neither sweep nor dispose. -/
theorem beforeSweep_ledger (i : Input RsStrategy) (e : Engine RsStrategy Wire) (k : SessionKey) :
    LedgerSteps { Premises.none with sweeps := False } i k (e.ledger k) ((e.beforeSweep i).ledger k) :=
  Acts.ledger (A := { Premises.none with sweeps := False })
    (beforeSweep_acts trivial i e fun _ _ _ _ _ _ => trivial) False.elim k

omit [Crates] in
/-- The cleanup check leaves what is blank blank. -/
theorem maybeRunCleanup_blank {k : SessionKey} (h : (e.ledger k).Blank k) :
    (e.maybeRunCleanup.ledger k).Blank k := by
  obtain ⟨tombstone, parked, hledger, htomb, hparked⟩ := ledger_maybeRunCleanup e k (.inl h.info)
  rw [hledger]
  exact { h with tombstone := htomb h.tombstone, parked := hparked h.parked }

/-- **A foreign input leaves the engine without a trace of the message.** -/
theorem step_blank {k : SessionKey} (hi : i.Foreign k.1 k.2) (h : (e.ledger k).Blank k) :
    ((e.step i).2.ledger k).Blank k := by
  have hbefore := (beforeSweep_ledger i e k).induct (fun hstep hL => hstep.blank id hi hL) h
  rw [step_eq]
  cases i with
  | event ev => exact maybeRunCleanup_blank hbefore
  | subscribe | connect | publish | recv => exact hbefore

/-- The engine was fed these shards of the message since `t₀`: its session lives and was fed them, or it
was disposed of when they were enough, and its tombstone stands. -/
inductive Collects (pub : Publication) (t₀ : Instant) (D : Finset Nat) (e : Engine RsStrategy Wire) : Prop
  | live (h : (e.ledger (pub.c, pub.m)).Receives pub D)
  | buried {at_ : Instant} (hnone : e.session? pub.c pub.m = none)
      (htomb : e.tombstones[(pub.c, pub.m)]? = some at_) (hsince : t₀ ≤ at_)
      (henough : pub.needed ≤ D.card)

/-- **The cleanup check** disposes of the session only when its shards are enough. -/
theorem Collects.maybeRunCleanup (hwithin : e.Within t₀) (hdated : e.Dated t₀ (pub.c, pub.m))
    (hlawful : (e.ledger (pub.c, pub.m)).Lawful) (h : e.Collects pub t₀ D) :
    e.maybeRunCleanup.Collects pub t₀ D := by
  have hkey := maybeRunCleanup_key e pub.c pub.m
  -- the sweep takes a live session only after its linger, never a young tombstone
  cases h with
  | live h =>
    obtain ⟨s, hs, hfed⟩ := h.session
    have hsession : e.session? pub.c pub.m = some s := hs
    by_cases hgone : e.maybeRunCleanup.session? pub.c pub.m = none
    · -- the session is as old as the publish, so it is its linger that is over
      obtain ⟨info, hinfo, hexpired⟩ := expired_of_maybeRunCleanup (by rw [hsession]; simp) hgone
      obtain ⟨info', hinfo', hterminal⟩ := hlawful.stamped s hs
      obtain rfl := Option.some.inj (hinfo.symm.trans hinfo')
      have hyoung : ¬ e.clock.time - info.createdAt > e.config.activeSessionTtl := by
        have hcreated := Nat.add_le_add_right (hdated info hinfo) e.config.activeSessionTtl
        have hnow := (hwithin.unexpired e.clock.calls).trans hcreated
        exact Nat.not_lt.mpr (Nat.sub_le_iff_le_add'.mpr hnow)
      have hdone : info.terminalAt.isSome := by
        unfold isExpired at hexpired
        rw [Bool.or_eq_true, decide_eq_true_eq] at hexpired
        rcases hexpired with hold | hlinger
        · exact absurd hold hyoung
        · cases hat : info.terminalAt with
          | none => simp [hat] at hlinger
          | some at_ => rfl
      have henough : pub.needed ≤ D.card := by
        refine hfed.reconstructed_iff.mp ?_
        have hstate := hterminal.mp hdone
        obtain ⟨results, ⟨-, hconsuming, -⟩ | ⟨-, hreconstructed, -⟩⟩ := hfed
        · have hconsuming' : s.state = .consuming := hconsuming
          rw [hconsuming'] at hstate
          cases hstate
        · exact hreconstructed
      rcases hkey with ⟨hsame, -⟩ | ⟨-, htomb⟩ | ⟨hsame, -⟩
      · rw [hsame, hsession] at hgone
        cases hgone
      · exact .buried hgone htomb (hwithin.since _) henough
      · rw [hsame, hsession] at hgone
        cases hgone
    · obtain ⟨tombstone, parked, hledger, htomb, hparked⟩ :=
        ledger_maybeRunCleanup e (pub.c, pub.m) (.inr (Option.isSome_iff_ne_none.mpr hgone))
      refine .live ?_
      rw [hledger]
      exact { h with tombstone := htomb h.tombstone, parked := hparked h.parked }
  | @buried at_ hnone htomb hsince henough =>
    rcases hkey with ⟨hsame, htomb'⟩ | ⟨hgone, htomb'⟩ | ⟨-, -, at', hat, hold⟩
    · exact .buried (hsame.trans hnone) (htomb'.trans htomb) hsince henough
    · exact .buried hgone htomb' (hwithin.since _) henough
    · -- a tombstone outlives the session it stands for
      obtain rfl := Option.some.inj (htomb.symm.trans hat)
      have hlong := Nat.add_le_add hsince hwithin.buried
      have hnow := (hwithin.unexpired e.clock.calls).trans hlong
      exact absurd hold (Nat.not_lt.mpr hnow)

theorem beforeSweep_lasting (e : Engine RsStrategy Wire) (i : Input RsStrategy) :
    Lasting e (e.beforeSweep i) :=
  beforeSweep_keeps (P := Lasting e) e i (fun hact h => h.trans hact.lasting) (.refl rfl rfl)

theorem beforeSweep_dated {k : SessionKey} (hwithin : e.Within t₀) (he : e.Dated t₀ k) :
    (e.beforeSweep i).Dated t₀ k :=
  (beforeSweep_keeps (P := fun e => e.Within t₀ ∧ e.Dated t₀ k) e i
    (fun hact he => ⟨he.1.lasting hact.lasting, hact.dated he.1.since he.2⟩) ⟨hwithin, he⟩).2

/-- What a step leaves before its cleanup check, it leaves. -/
theorem Collects.step (horderly : e.Orderly) (hwithin : e.Within t₀) (hdated : e.Dated t₀ (pub.c, pub.m))
    (h : (e.beforeSweep i).Collects pub t₀ D) : (e.step i).2.Collects pub t₀ D := by
  rw [step_eq]
  cases i with
  | event ev =>
    exact h.maybeRunCleanup (hwithin.lasting (beforeSweep_lasting e _)) (beforeSweep_dated hwithin hdated)
      (horderly.beforeSweep _ _)
  | subscribe | connect | publish | recv => exact h

/-- **A foreign input** brings no shard, and delivers nothing under the key. -/
theorem Collects.foreign (horderly : e.Orderly) (hwithin : e.Within t₀)
    (hdated : e.Dated t₀ (pub.c, pub.m)) (hi : i.Foreign pub.c pub.m) (h : e.Collects pub t₀ D) :
    (e.step i).2.Collects pub t₀ D
    ∧ ∀ d e₁, e.emission i = some (d, e₁) → ¬ (d.channelId = pub.c ∧ d.messageId = pub.m) := by
  have hsteps := beforeSweep_ledger i e (pub.c, pub.m)
  have hquiet : ¬ (¬ e.Reconstructed pub.c pub.m ∧ (e.beforeSweep i).Reconstructed pub.c pub.m) →
      ∀ d e₁, e.emission i = some (d, e₁) → ¬ (d.channelId = pub.c ∧ d.messageId = pub.m) := by
    rintro hnot ⟨c, m, payload⟩ e₁ hemission ⟨hc, hm⟩
    have hc' : c = pub.c := hc
    have hm' : m = pub.m := hm
    subst hc' hm'
    exact hnot ((emission_iff_reconstructs e i pub.c pub.m).mp ⟨payload, e₁, hemission⟩)
  cases h with
  | live h =>
    have hafter := hsteps.induct (fun hstep hL => hstep.receives id hi.1 hL) h
    refine ⟨Collects.step horderly hwithin hdated (.live hafter), hquiet ?_⟩
    obtain ⟨s, hs, hfed⟩ := h.session
    obtain ⟨s', hs', hfed'⟩ := hafter.session
    rintro ⟨hnot, s'', hs'', hdone⟩
    obtain rfl := Option.some.inj (hs'.symm.trans hs'')
    exact hnot ⟨s, hs, hfed.reconstructed_iff.mpr (hfed'.reconstructed_iff.mp hdone)⟩
  | buried hnone htomb hsince henough =>
    obtain ⟨hnone', htomb'⟩ := hsteps.induct (fun hstep hL => hstep.buried id hi.2 hL) ⟨hnone, htomb⟩
    refine ⟨Collects.step horderly hwithin hdated (.buried hnone' htomb' hsince henough), hquiet ?_⟩
    rintro ⟨-, s, hs, -⟩
    cases hs.symm.trans hnone'

/-- What a live session's account is. -/
theorem holds_of_receives (horderly : e.Orderly) (h : (e.ledger (pub.c, pub.m)).Receives pub D) :
    ∃ a : Account, e.Holds pub.c pub.m none a ∧ pub.Fed D a.session ∧ a.delivered = e.delivered := by
  obtain ⟨s, hs, hfed⟩ := h.session
  obtain ⟨info, hinfo, -⟩ := (horderly.lawful (pub.c, pub.m)).stamped s hs
  have hmeta : e.sessionMeta[(pub.c, pub.m)]? = some info := hinfo
  refine ⟨⟨s, info.terminalAt.isSome, e.delivered⟩, ?_, hfed, rfl⟩
  exact
    { session := ⟨s, hs, rfl, .refl _⟩
      stamp := by rw [hmeta]; rfl
      delivered := rfl
      tombstone := h.tombstone
      parked := h.parked }

/-- What an account was fed, its session has received. -/
theorem Holds.receives {a : Account} (h : e.Holds pub.c pub.m none a) (hfed : pub.Fed D a.session) :
    (e.ledger (pub.c, pub.m)).Receives pub D := by
  obtain ⟨s, hs, halike⟩ := h.session
  exact { session := ⟨s, hs, hfed.alike halike⟩, tombstone := h.tombstone, parked := h.parked }

/-- **A chunk of the message**: the shard is added, and the payload is offered to the sink exactly when it
makes the shards enough. -/
theorem Collects.chunk (hsha : Sha256Len) (hrs : RsCorrect) (horderly : e.Orderly) (hwithin : e.Within t₀)
    (hdated : e.Dated t₀ (pub.c, pub.m)) (peer : PeerId) {idx : Nat} {data : Bytes}
    (hgenuine : pub.shards[idx]? = some data) (h : e.Collects pub t₀ D) :
    (e.step (.event (.chunk peer pub.c pub.m idx data))).2.Collects pub t₀ (insert idx D)
    ∧ (e.step (.event (.chunk peer pub.c pub.m idx data))).2.delivered
      = if D.card < pub.needed ∧ pub.needed ≤ (insert idx D).card
        then (e.delivered.trySend ⟨pub.c, pub.m, pub.payload⟩).2 else e.delivered := by
  rw [step_delivered]
  -- a live session is fed the shard; a buried one had enough and drops it
  cases h with
  | live h =>
    obtain ⟨a, hholds, hfed, hdelivered⟩ := holds_of_receives horderly h
    have hcoll : ∀ b, pub.shards[idx]? = some b → sha256 data = sha256 b → data = b := fun b hb _ =>
      Option.some.inj (hgenuine.symm.trans hb)
    obtain ⟨hfed', hoffer⟩ := hfed.arrive hsha hrs idx data hcoll (if_pos hgenuine).symm
    have hafter := hholds.handleChunk (idx, data)
    have hbefore : (e.beforeSweep (.event (.chunk peer pub.c pub.m idx data))).Holds pub.c pub.m none
        (a.arrive pub.c pub.m (idx, data)) := by
      rw [beforeSweep_event]
      exact hafter
    refine ⟨Collects.step horderly hwithin hdated (.live (hbefore.receives hfed')), ?_⟩
    rw [hbefore.delivered, hoffer, hdelivered]
  | @buried at_ hnone htomb hsince henough =>
    have hsame : e.beforeSweep (.event (.chunk peer pub.c pub.m idx data)) = e := by
      rw [beforeSweep_event]
      have hbury : e.isTombstoned pub.c pub.m := by
        simpa [isTombstoned] using (BTreeMap.mem_iff_get _ _).mpr ⟨at_, htomb⟩
      show e.handleChunk pub.c pub.m idx data = e
      unfold Engine.handleChunk
      rw [if_pos hbury]
    have hmore : pub.needed ≤ (insert idx D).card :=
      henough.trans (Finset.card_le_card (Finset.subset_insert idx D))
    refine ⟨Collects.step horderly hwithin hdated ?_, ?_⟩
    · rw [hsame]
      exact .buried hnone htomb hsince hmore
    · rw [hsame, if_neg fun hfew => Nat.not_lt_of_le henough hfew.1]

/-- **Another `SessionOpen` of the message** changes nothing. -/
theorem Collects.sessionOpen (horderly : e.Orderly) (hwithin : e.Within t₀)
    (hdated : e.Dated t₀ (pub.c, pub.m)) (peer : PeerId) (preamble update : Bytes)
    (h : e.Collects pub t₀ D) :
    (e.step (.event (.sessionOpen peer pub.c pub.m preamble update))).2.Collects pub t₀ D
    ∧ (e.step (.event (.sessionOpen peer pub.c pub.m preamble update))).2.delivered = e.delivered := by
  rw [step_delivered]
  -- a live session refuses the open as a duplicate, a buried one is not reopened
  cases h with
  | live h =>
    obtain ⟨s, hs, -⟩ := h.session
    have hsession : e.session? pub.c pub.m = some s := hs
    obtain ⟨ch, hch, hm⟩ := Option.bind_eq_some_iff.mp hsession
    have hfree : ¬ e.isTombstoned pub.c pub.m := by
      have htomb : e.tombstones[(pub.c, pub.m)]? = none := h.tombstone
      simpa [isTombstoned] using BTreeMap.not_mem_of_get htomb
    have hdup : ch.openSession pub.m preamble = (.error (.duplicateSession pub.m), ch) := by
      unfold Channel.openSession
      rw [if_pos ((BTreeMap.mem_iff_get _ _).mpr ⟨s, hm⟩)]
    have hsame : e.beforeSweep (.event (.sessionOpen peer pub.c pub.m preamble update))
        = { e with channels := e.channels.insert pub.c ch } := by
      rw [beforeSweep_event]
      show e.handleSessionOpen pub.c pub.m preamble = _
      unfold Engine.handleSessionOpen
      rw [if_neg hfree]
      simp only [hch, hdup]
    rw [hsame]
    refine ⟨Collects.step horderly hwithin hdated (.live ?_), rfl⟩
    rw [hsame, ledger_insert_same hch rfl rfl]
    exact h
  | @buried at_ hnone htomb hsince henough =>
    have hsame : e.beforeSweep (.event (.sessionOpen peer pub.c pub.m preamble update)) = e := by
      rw [beforeSweep_event]
      have hbury : e.isTombstoned pub.c pub.m := by
        simpa [isTombstoned] using (BTreeMap.mem_iff_get _ _).mpr ⟨at_, htomb⟩
      show e.handleSessionOpen pub.c pub.m preamble = e
      unfold Engine.handleSessionOpen
      rw [if_pos hbury]
    refine ⟨Collects.step horderly hwithin hdated ?_, by rw [hsame]⟩
    rw [hsame]
    exact .buried hnone htomb hsince henough

/-- **The first `SessionOpen` of the message** creates the session, which holds no shard yet. -/
theorem step_sessionOpen_blank (hsha : Sha256Len) (hrs : RsCorrect)
    (hprost : Crates.preambleDecode pub.preambleBytes = .ok pub.preamble) (horderly : e.Orderly)
    (hwithin : e.Within t₀) (hblank : (e.ledger (pub.c, pub.m)).Blank (pub.c, pub.m))
    (hhosted : pub.c ∈ e.channels) (peer : PeerId) (update : Bytes) :
    (e.step (.event (.sessionOpen peer pub.c pub.m pub.preambleBytes update))).2.Collects pub t₀ ∅
    ∧ (e.step (.event (.sessionOpen peer pub.c pub.m pub.preambleBytes update))).2.delivered
      = e.delivered := by
  obtain ⟨ch, hch⟩ := (BTreeMap.mem_iff_get _ _).mp hhosted
  obtain ⟨k, m, chunkLen, henc⟩ := encode_ok pub.encoded
  obtain ⟨config, seeds, hfactory⟩ := horderly.factories pub.c ch.factory.build (by simp [build?, hch])
  obtain ⟨strategy, hnew, hstore⟩ := henc.newRelay_ok hsha hrs config (seeds ch.factory.counter)
  -- the factory accepts the preamble of the publication
  have hbuild : (ch.factory.call pub.preambleBytes).1 = .ok strategy := by
    show (ch.factory.build ch.factory.counter pub.preambleBytes).1 = _
    rw [hfactory]
    simp only [rsRelayFactory, hprost, hnew]
  -- nothing was parked: the session is opened with no chunk
  have hawaits : e.Awaits pub.c pub.m ch.factory e.delivered [] :=
    { hosted := by rw [hch]; rfl
      session := hblank.session
      stamp := hblank.info
      delivered := rfl
      tombstone := hblank.tombstone
      parked := by
        have hparked : e.parkedChunks[(pub.c, pub.m)]? = none := hblank.parked
        rw [hparked]
        rfl }
  have hholds : (e.beforeSweep (.event (.sessionOpen peer pub.c pub.m pub.preambleBytes update))).Holds
      pub.c pub.m none (opened strategy e.delivered) := by
    rw [beforeSweep_event]
    exact hawaits.handleSessionOpen hbuild
  have hfed : pub.Fed ∅ (opened strategy e.delivered).session := by
    refine ⟨[], .inl ⟨?_, rfl, rfl, hstore⟩⟩
    rw [Finset.card_empty, Publication.needed, henc.asUsize_numData]
    exact (henc.shape_bounds hrs).1
  have hdated : e.Dated t₀ (pub.c, pub.m) := by
    intro info hinfo
    cases hinfo.symm.trans hblank.info
  rw [step_delivered, hholds.delivered]
  exact ⟨Collects.step horderly hwithin hdated (.live (hholds.receives hfed)), rfl⟩

end Steps

end Engine

/-! ## A relay and the events it has read -/

section Publication

variable [Crates]

/-- The event is a `SessionOpen` or a chunk of the message. -/
abbrev Publication.Brings (pub : Publication) (ev : NetEvent) : Prop :=
  (Input.event ev : Input RsStrategy).feeds pub.c pub.m

/-- The key of the message. -/
abbrev Publication.key (pub : Publication) : SessionKey := (pub.c, pub.m)

/-- The shard of the message that an event brings. -/
def Publication.shard? (pub : Publication) : NetEvent → Option Nat
  | .chunk _ c m idx _ => if c = pub.c ∧ m = pub.m then some idx else none
  | _ => none

/-- The shards of the message that the events bring. -/
def Publication.arrived (pub : Publication) (events : List NetEvent) : Finset Nat :=
  (events.filterMap pub.shard?).toFinset

/-- What the event says about the message is so: the preamble is the published one, and a shard has the
digest announced for it. -/
def Publication.Backs (pub : Publication) : NetEvent → Prop
  | .sessionOpen _ c m b _ => c = pub.c → m = pub.m → b = pub.preambleBytes
  | .chunk _ c m idx data => c = pub.c → m = pub.m → pub.preamble.hashes[idx]? = some (sha256 data)
  | _ => True

variable {pub : Publication} {events : List NetEvent} {ev : NetEvent}

/-- The shards that arrived after one more event. -/
theorem Publication.arrived_concat (pub : Publication) (events : List NetEvent) (ev : NetEvent) :
    pub.arrived (events ++ [ev]) = pub.arrived events ∪ (pub.shard? ev).toFinset := by
  ext idx
  simp only [arrived, List.filterMap_append, List.toFinset_append, Finset.mem_union, List.mem_toFinset,
    Option.mem_toFinset]
  cases h : pub.shard? ev <;> simp [h, eq_comm]

/-- An event of another message brings no shard. -/
theorem Publication.shard?_of_not_brings (h : ¬ pub.Brings ev) : pub.shard? ev = none := by
  cases ev with
  | chunk peer c m idx data => exact if_neg h
  | handshake | subscribe | unsubscribe | sessionOpen | routingUpdate | peerDisconnected | peerConnected
  | chunkSendResult | peerReconstructed | sessionClosed => rfl

theorem Publication.brings_of_shard {idx : Nat} (h : pub.shard? ev = some idx) : pub.Brings ev := by
  by_contra hnot
  rw [Publication.shard?_of_not_brings hnot] at h
  cases h

/-- Nothing arrived as long as no event is of the message. -/
theorem Publication.arrived_of_quiet (h : ∀ ev ∈ events, ¬ pub.Brings ev) : pub.arrived events = ∅ := by
  have hnone : events.filterMap pub.shard? = [] :=
    List.filterMap_eq_nil_iff.mpr fun ev hev => Publication.shard?_of_not_brings (h ev hev)
  rw [Publication.arrived, hnone]
  rfl

/-- Of the bytes with an announced digest only the shard itself does not collide with the shard. -/
theorem Publication.Backs.shard {peer : PeerId} {idx : Nat} {data : Bytes}
    (h : pub.Backs (.chunk peer pub.c pub.m idx data))
    (hcoll : ∀ b ∈ pub.shards, sha256 data = sha256 b → data = b) : pub.shards[idx]? = some data := by
  obtain ⟨k, m, chunkLen, henc⟩ := encode_ok pub.encoded
  have hdigest := h rfl rfl
  rw [henc.hashes, List.getElem?_map] at hdigest
  obtain ⟨b, hb, heq⟩ := Option.map_eq_some_iff.mp hdigest
  rw [hb, hcoll b (List.mem_of_getElem? hb) heq.symm]

end Publication

/-- The messages under a key that were put into the sink meanwhile. -/
def Sink.put (c : ChannelId) (m : MessageId) (before after : Sink) : List DeliveredMessage :=
  (after.queue.drop before.queue.length).filter fun d => d.channelId = c ∧ d.messageId = m

theorem Sink.put_self (c : ChannelId) (m : MessageId) (s : Sink) : s.put c m s = [] := by
  simp [put]

/-- A sink with room takes what it is offered. -/
theorem Sink.put_trySend (c : ChannelId) (m : MessageId) {s : Sink} (hroom : s.hasRoom)
    (d : DeliveredMessage) :
    s.put c m (s.trySend d).2 = if d.channelId = c ∧ d.messageId = m then [d] else [] := by
  unfold hasRoom at hroom
  rw [Bool.and_eq_true, decide_eq_true_eq] at hroom
  unfold put trySend
  rw [if_neg (by simpa using hroom.1), if_pos hroom.2, List.drop_left]
  by_cases h : d.channelId = c ∧ d.messageId = m
  · simp [h]
  · rw [if_neg h, List.filter_eq_nil_iff]
    simpa using h

/-- What is offered under another key is not put under this one, whether there is room or not. -/
theorem Sink.put_trySend_other {c : ChannelId} {m : MessageId} (s : Sink) {d : DeliveredMessage}
    (hother : ¬ (d.channelId = c ∧ d.messageId = m)) : s.put c m (s.trySend d).2 = [] := by
  unfold put trySend
  split
  · simp
  · split
    · simp [hother]
    · simp

namespace Engine

variable [Crates] {pub : Publication} {e : Engine RsStrategy Wire} {i : Input RsStrategy} {t₀ : Instant}
  {events : List NetEvent} {ev : NetEvent}

/-- A hosted channel stays hosted. -/
theorem mem_channels_step {c : ChannelId} (i : Input RsStrategy) (h : c ∈ e.channels) :
    c ∈ (e.step i).2.channels := by
  have hiff : ∀ e : Engine RsStrategy Wire, c ∈ e.channels ↔ (e.subscribed c 0).isSome := by
    intro e
    rw [subscribed, Option.isSome_map, BTreeMap.mem_iff_get, Option.isSome_iff_exists]
  rw [hiff] at h ⊢
  rw [step_subscribed]
  split
  · rwa [Option.isSome_map]
  · split
    · rfl
    · exact h

/-- The relay has read these events since the message was published: it waits for its first
`SessionOpen`, or has collected the shards among them. -/
inductive Stands (pub : Publication) (t₀ : Instant) (events : List NetEvent)
    (e : Engine RsStrategy Wire) : Prop
  | waiting (hblank : (e.ledger (pub.c, pub.m)).Blank (pub.c, pub.m)) (hhosted : pub.c ∈ e.channels)
      (hquiet : ∀ ev ∈ events, ¬ pub.Brings ev)
  | collecting (h : e.Collects pub t₀ (pub.arrived events)) (hdated : e.Dated t₀ (pub.c, pub.m))

/-- Nothing is put under a key that nothing is emitted for. -/
theorem put_step {c : ChannelId} {m : MessageId}
    (h : ∀ d e₁, e.emission i = some (d, e₁) → ¬ (d.channelId = c ∧ d.messageId = m)) :
    e.delivered.put c m (e.step i).2.delivered = [] := by
  by_cases hi : i = .recv
  · subst hi
    show ((e.delivered.queue.tail).drop e.delivered.queue.length).filter _ = []
    rw [List.drop_of_length_le (by simp)]
    rfl
  · cases hemission : e.emission i with
    | none =>
      rw [step_delivered_of_none hemission hi]
      exact Sink.put_self c m e.delivered
    | some emitted =>
      obtain ⟨d, e₁⟩ := emitted
      rw [step_delivered_of_emission hemission]
      exact Sink.put_trySend_other _ (h d e₁ hemission)

/-- A step that leaves the message unheard of puts nothing under its key. -/
theorem put_blank {c : ChannelId} {m : MessageId} (hi : i.Foreign c m)
    (hblank : (e.ledger (c, m)).Blank (c, m)) : e.delivered.put c m (e.step i).2.delivered = [] := by
  refine put_step fun d e₁ hemission => ?_
  obtain ⟨c', m', payload⟩ := d
  rintro ⟨hc, hm⟩
  have hc' : c' = c := hc
  have hm' : m' = m := hm
  subst hc' hm'
  -- an emission reconstructs a session, and there is none
  obtain ⟨-, s, hs, -⟩ := (emission_iff_reconstructs e i c' m').mp ⟨payload, e₁, hemission⟩
  have hafter := (beforeSweep_ledger i e (c', m')).induct (fun hstep hL => hstep.blank id hi hL) hblank
  cases hs.symm.trans hafter.session

/-- **A foreign input** leaves the relay where it is. -/
theorem Stands.foreign (horderly : e.Orderly) (hwithin : e.Within t₀) (hi : i.Foreign pub.c pub.m)
    (h : e.Stands pub t₀ events) :
    (∀ events', (∀ ev ∈ events', ¬ pub.Brings ev) → (e.step i).2.Stands pub t₀ (events ++ events'))
    ∧ e.delivered.put pub.c pub.m (e.step i).2.delivered = [] := by
  cases h with
  | waiting hblank hhosted hquiet =>
    refine ⟨fun events' hforeign => .waiting (step_blank hi hblank) (mem_channels_step i hhosted)
      fun ev hev => ?_, put_blank hi hblank⟩
    rcases List.mem_append.mp hev with hev | hev
    · exact hquiet ev hev
    · exact hforeign ev hev
  | collecting h hdated =>
    obtain ⟨hafter, hemission⟩ := h.foreign horderly hwithin hdated hi
    refine ⟨fun events' hforeign => .collecting ?_ (step_dated hwithin hdated), put_step hemission⟩
    have hnone : events'.filterMap pub.shard? = [] :=
      List.filterMap_eq_nil_iff.mpr fun ev hev => Publication.shard?_of_not_brings (hforeign ev hev)
    rwa [Publication.arrived, List.filterMap_append, hnone, List.append_nil]

/-- **The relay reads an event.**  What it has read since brings the shards it has collected, and it puts
the message into its sink when they become enough. -/
theorem Stands.event (hsha : Sha256Len) (hrs : RsCorrect)
    (hprost : Crates.preambleDecode pub.preambleBytes = .ok pub.preamble) (horderly : e.Orderly)
    (hwithin : e.Within t₀) (hbacks : pub.Backs ev)
    (hcoll : ∀ peer idx data, ev = .chunk peer pub.c pub.m idx data →
      ∀ b ∈ pub.shards, sha256 data = sha256 b → data = b)
    (hopened : ∀ peer idx data, ev = .chunk peer pub.c pub.m idx data →
      ∃ ev' ∈ events, pub.Brings ev')
    (hroom : (pub.arrived events).card < pub.needed → e.delivered.hasRoom)
    (h : e.Stands pub t₀ events) :
    (e.step (.event ev)).2.Stands pub t₀ (events ++ [ev])
    ∧ e.delivered.put pub.c pub.m (e.step (.event ev)).2.delivered
      = if (pub.arrived events).card < pub.needed ∧ pub.needed ≤ (pub.arrived (events ++ [ev])).card
        then [⟨pub.c, pub.m, pub.payload⟩] else [] := by
  by_cases hbrings : pub.Brings ev
  case neg =>
    obtain ⟨hstands, hput⟩ := h.foreign horderly hwithin (i := .event ev)
      ⟨hbrings, fun _ _ hpublish => by cases hpublish⟩
    have hsame : pub.arrived (events ++ [ev]) = pub.arrived events := by
      rw [Publication.arrived_concat, Publication.shard?_of_not_brings hbrings]
      exact Finset.union_empty _
    refine ⟨hstands [ev] fun ev' hev' => ?_, ?_⟩
    · rw [List.mem_singleton.mp hev']
      exact hbrings
    · rw [hput, hsame, if_neg fun hboth => Nat.not_lt_of_le hboth.2 hboth.1]
  case pos =>
    cases ev with
    | handshake | subscribe | unsubscribe | routingUpdate | peerDisconnected | peerConnected
    | chunkSendResult | peerReconstructed | sessionClosed => exact hbrings.elim
    | sessionOpen peer c m preamble update =>
      obtain ⟨rfl, rfl⟩ : c = pub.c ∧ m = pub.m := hbrings
      have hsame : pub.arrived (events ++ [.sessionOpen peer pub.c pub.m preamble update])
          = pub.arrived events := by
        rw [Publication.arrived_concat]
        exact Finset.union_empty _
      rw [hsame, if_neg fun hboth => Nat.not_lt_of_le hboth.2 hboth.1]
      obtain rfl : preamble = pub.preambleBytes := hbacks rfl rfl
      cases h with
      | waiting hblank hhosted hquiet =>
        obtain ⟨hcollects, hdelivered⟩ := step_sessionOpen_blank hsha hrs hprost horderly hwithin hblank
          hhosted peer update
        have hdated : e.Dated t₀ (pub.c, pub.m) := by
          intro info hinfo
          cases hinfo.symm.trans hblank.info
        refine ⟨.collecting ?_ (step_dated hwithin hdated), ?_⟩
        · rw [hsame, Publication.arrived_of_quiet hquiet]
          exact hcollects
        · rw [hdelivered]
          exact Sink.put_self ..
      | collecting h hdated =>
        obtain ⟨hcollects, hdelivered⟩ := h.sessionOpen horderly hwithin hdated peer pub.preambleBytes update
        refine ⟨.collecting ?_ (step_dated hwithin hdated), ?_⟩
        · rwa [hsame]
        · rw [hdelivered]
          exact Sink.put_self ..
    | chunk peer c m idx data =>
      obtain ⟨rfl, rfl⟩ : c = pub.c ∧ m = pub.m := hbrings
      have hshard := hbacks.shard (hcoll peer idx data rfl)
      cases h with
      | waiting hblank hhosted hquiet =>
        -- a chunk comes behind a `SessionOpen` of its link
        obtain ⟨ev', hev', hbrings'⟩ := hopened peer idx data rfl
        exact absurd hbrings' (hquiet ev' hev')
      | collecting h hdated =>
        obtain ⟨hcollects, hdelivered⟩ := h.chunk hsha hrs horderly hwithin hdated peer hshard
        have hnext : pub.arrived (events ++ [.chunk peer pub.c pub.m idx data])
            = insert idx (pub.arrived events) := by
          have hbrings : pub.shard? (.chunk peer pub.c pub.m idx data) = some idx := if_pos ⟨rfl, rfl⟩
          rw [Publication.arrived_concat, hbrings, Option.toFinset_some, Finset.union_comm]
          rfl
        refine ⟨.collecting ?_ (step_dated hwithin hdated), ?_⟩
        · rw [hnext]
          exact hcollects
        · rw [hdelivered, hnext]
          split
          case isTrue hboth =>
            rw [Sink.put_trySend _ _ (hroom hboth.1), if_pos ⟨rfl, rfl⟩]
          case isFalse => exact Sink.put_self ..

end Engine

end Ethp2p
