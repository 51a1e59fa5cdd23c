/-
# Ethp2p.Lifecycle — the states a session goes through, seen between events.

`take_chunk` moves a session to `Decoding`, and a separate function of the engine takes it from there
to `Reconstructed` or `Failed` and marks its metadata terminal.  What ties the two is the `complete`
flag of the outcome, which redundant chunks carry as well.  `beforeDecode_decoding` says that the flag
is right: a step goes on to decode exactly the session it left in `Decoding`.

The reason is `Session.Waiting`: a consuming session holds too few chunks to be reconstructed, or holds
none at all (a preamble may ask for none), so no chunk it takes can be redundant and complete at once.
-/
import Ethp2p.AtMostOnce
import Ethp2p.Bookkeeping

namespace Ethp2p

open Std

/-! ## One session -/

/-- The session is done. -/
def SessionState.terminal : SessionState → Bool
  | .reconstructed | .failed => true
  | .origin | .consuming | .decoding => false

section Waiting

variable [Crates] {F : Prop}

/-- The strategy cannot reconstruct its payload yet, or holds no chunk at all. -/
def RsStrategy.Unready (s : RsStrategy) : Prop :=
  s.canReconstruct = false ∨ ∀ slot ∈ s.chunks, slot = none

omit [Crates] in
theorem RsStrategy.Unready.sameStore {s s' : RsStrategy} (h : s.Unready) (hs : s.SameStore s') :
    s'.Unready := by
  unfold Unready canReconstruct acceptedCount at h ⊢
  rwa [hs.chunks_eq, hs.preamble_eq]

/-- A complete outcome is of an accepted chunk; after any other, the strategy is not ready either. -/
theorem RsStrategy.Unready.takeChunk {s : RsStrategy} (h : s.Unready) (idx : Nat) (data : Bytes) :
    (∀ outcome, (s.takeChunk idx data).1 = .ok outcome → outcome.complete → outcome.verdict = .accepted)
      ∧ ((∀ outcome, (s.takeChunk idx data).1 = .ok outcome → outcome.complete = false) →
        (s.takeChunk idx data).2.Unready) := by
  unfold RsStrategy.takeChunk
  split
  · exact ⟨nofun, fun _ => h⟩
  split
  case isTrue hheld =>
    refine ⟨?_, fun _ => h⟩
    rintro outcome ⟨rfl⟩ hcomplete
    rcases h with hless | hempty
    · rw [hless] at hcomplete
      cases hcomplete
    · -- a redundant chunk is held, so the strategy does not hold none
      unfold chunkAt at hheld
      rw [List.getD_eq_getElem?_getD] at hheld
      cases hget : s.chunks[idx]? with
      | none => simp [hget] at hheld
      | some slot => simp [hget, hempty slot (List.mem_of_getElem? hget)] at hheld
  case isFalse =>
    cases Ethp2p.verifyChunk s.preamble idx data with
    | accepted =>
      refine ⟨?_, fun hincomplete => .inl (hincomplete _ rfl)⟩
      rintro outcome ⟨rfl⟩ -
      rfl
    | redundant | decoding | surplus | invalid | pending =>
      refine ⟨?_, fun _ => h⟩
      rintro outcome ⟨rfl⟩ hcomplete
      cases hcomplete

omit [Crates] in
/-- A relay that was just built holds no chunks. -/
theorem newRelayWithSeed_unready {preamble : Preamble} {config : RsConfig} {seed : UInt64}
    {s : RsStrategy} (h : RsStrategy.newRelayWithSeed preamble config seed = .ok s) : s.Unready := by
  unfold RsStrategy.newRelayWithSeed at h
  split at h
  · cases h
  · cases h
    exact .inr fun slot hslot => List.eq_of_mem_replicate hslot

namespace Session

variable {s s' : Session RsStrategy}

/-- A consuming session is not ready to be decoded. -/
def Waiting (s : Session RsStrategy) : Prop := s.state = .consuming → s.strategy.Unready

/-- The outcome of a chunk says that the message is complete. -/
def completes (s : Session RsStrategy) (idx : Nat) (data : Bytes) : Bool :=
  match (s.takeChunk idx data).1 with
  | .ok outcome => outcome.complete
  | .error _ => false

/-- **A waiting session is complete exactly when it turns to `Decoding`**, and waits on otherwise. -/
theorem Waiting.takeChunk (h : s.Waiting) (hdecoding : s.state ≠ .decoding) (idx : Nat) (data : Bytes) :
    (s.takeChunk idx data).2.Waiting
      ∧ (s.completes idx data ↔ (s.takeChunk idx data).2.state = .decoding) := by
  unfold completes Session.takeChunk
  cases hstate : s.state with
  | decoding => exact absurd hstate hdecoding
  | reconstructed | origin | failed => exact ⟨h, by simp [hstate]⟩
  | consuming =>
    obtain ⟨hverdict, hrest⟩ := (h hstate).takeChunk idx data
    dsimp only
    rcases htake : Strategy.takeChunk s.strategy idx data with ⟨err | outcome, strategy⟩
    all_goals rw [show s.strategy.takeChunk idx data = _ from htake] at hverdict hrest
    · exact ⟨fun _ => hrest nofun, by simp⟩
    · dsimp only
      split
      case isTrue hboth =>
        refine ⟨nofun, iff_of_true ?_ rfl⟩
        exact (Bool.and_eq_true_iff.mp hboth).1
      case isFalse hnot =>
        have hincomplete : outcome.complete = false := by
          by_contra hcomplete
          rw [Bool.not_eq_false] at hcomplete
          exact hnot (by rw [hcomplete, hverdict outcome rfl hcomplete]; rfl)
        refine ⟨fun _ => hrest ?_, ?_⟩
        · rintro _ ⟨rfl⟩
          exact hincomplete
        · simp [hincomplete]

end Session

/-- Once a session is done consuming, its shards stay. -/
theorem SessionOp.chunks_eq {s s' : Session RsStrategy} (h : SessionOp F s s')
    (hs : s.state ≠ .consuming) : s'.strategy.chunks = s.strategy.chunks := by
  cases h with
  | attach | detach => rfl
  | poll => exact s.strategy.poll_sameStore.chunks_eq
  | sent p handle ok => exact (s.strategy.chunkSent_sameStore p handle ok).chunks_eq
  | take idx data => rw [s.takeChunk_strategy, if_neg hs]
  | finish => rw [s.decodeAndFinish_strategy]

/-- **No operation of a session completes it without saying so**: one that is waiting for shards still waits,
or it is decoding now. -/
theorem SessionOp.waiting {s s' : Session RsStrategy} (h : SessionOp F s s') (hs : s.Waiting) :
    s'.Waiting := by
  cases h with
  | attach p => exact fun hstate => (hs hstate).sameStore (s.strategy.attachPeer_sameStore p)
  | detach p completed =>
    exact fun hstate => (hs hstate).sameStore (s.strategy.detachPeer_sameStore p completed)
  | poll => exact fun hstate => (hs hstate).sameStore s.strategy.poll_sameStore
  | sent p handle ok =>
    exact fun hstate => (hs hstate).sameStore (s.strategy.chunkSent_sameStore p handle ok)
  | take idx data =>
    by_cases hdecoding : s.state = .decoding
    · intro hstate
      rcases s.takeChunk_state idx data with hsame | ⟨-, hdec⟩
      · rw [hsame, hdecoding] at hstate
        cases hstate
      · rw [hdec] at hstate
        cases hstate
    · exact (hs.takeChunk hdecoding idx data).1
  | finish =>
    intro hstate
    rw [s.decodeAndFinish_strategy]
    rcases s.decodeAndFinish_state with hsame | ⟨-, hdone | hdone⟩
    · exact hs (hsame.symm.trans hstate)
    · rw [hdone] at hstate
      cases hstate
    · rw [hdone] at hstate
      cases hstate

/-- The session goes on from `s` to `s'`: it stays in its state, or it is done consuming; and what a
done session holds stays. -/
structure Session.Advances (s s' : Session RsStrategy) : Prop where
  state : s'.state = s.state ∨ (s.state = .consuming ∧ s'.state.terminal)
  held : s.state.terminal → s'.strategy.chunks = s.strategy.chunks

omit [Crates] in
theorem Session.Advances.refl (s : Session RsStrategy) : s.Advances s := ⟨.inl rfl, fun _ => rfl⟩

omit [Crates] in
/-- A session that advances, and advances again. -/
theorem Session.Advances.trans {s s' s'' : Session RsStrategy} (h : s.Advances s')
    (h' : s'.Advances s'') : s.Advances s'' := by
  rcases h.state with hsame | ⟨hconsuming, hdone⟩
  · refine ⟨?_, fun ht => (h'.held (hsame ▸ ht)).trans (h.held ht)⟩
    rw [← hsame]
    exact h'.state
  · refine ⟨.inr ⟨hconsuming, ?_⟩, fun ht => ?_⟩
    · rcases h'.state with hsame' | ⟨hconsuming', -⟩
      · rwa [hsame']
      · rw [hconsuming'] at hdone
        cases hdone
    · rw [hconsuming] at ht
      cases ht

/-- Operations on a settled session advance it, but for a decode that is still to come. -/
theorem SessionOps.advances {s s' : Session RsStrategy} (h : SessionOps F s s')
    (hs : s.state ≠ .decoding) (hs' : s'.state ≠ .decoding) : s.Advances s' := by
  -- by induction on the operations: the state stays, or it was consuming and is no more
  have hstate : s'.state = s.state
      ∨ (s.state = .consuming ∧ (s'.state = .decoding ∨ s'.state.terminal)) := by
    clear hs'
    refine h.induct (P := fun s' => s'.state = s.state
      ∨ (s.state = .consuming ∧ (s'.state = .decoding ∨ s'.state.terminal))) (fun hop hold => ?_) (.inl rfl)
    rcases hop.state with hsame | ⟨hconsuming, hdecoding⟩ | ⟨-, hdecoding, hdone⟩
    · rwa [hsame]
    · rcases hold with hold | ⟨-, hold | hold⟩
      · exact .inr ⟨hold.symm.trans hconsuming, .inl hdecoding⟩
      · rw [hconsuming] at hold
        cases hold
      · rw [hconsuming] at hold
        cases hold
    · rcases hold with hold | ⟨hconsuming, -⟩
      · exact absurd (hold.symm.trans hdecoding) hs
      · refine .inr ⟨hconsuming, .inr ?_⟩
        rcases hdone with hdone | hdone <;> rw [hdone] <;> rfl
  refine ⟨hstate.imp_right fun hr => ⟨hr.1, hr.2.resolve_left hs'⟩, fun hterminal => ?_⟩
  -- a session that is done has neither its state nor its shards changed
  have hheld : s'.state = s.state ∧ s'.strategy.chunks = s.strategy.chunks := by
    refine h.induct (P := fun s' => s'.state = s.state ∧ s'.strategy.chunks = s.strategy.chunks)
      (fun {s₁ s₂} hop hold => ?_) ⟨rfl, rfl⟩
    have hconsuming : s₁.state ≠ .consuming := by
      rintro hc
      rw [← hold.1, hc] at hterminal
      cases hterminal
    have hdecoding : s₁.state ≠ .decoding := by rwa [hold.1]
    exact ⟨(SessionOps.state_eq (.single hop) hconsuming hdecoding).trans hold.1,
      (hop.chunks_eq hconsuming).trans hold.2⟩
  exact hheld.2

end Waiting

/-! ## The complete flag -/

namespace Engine

section Flag

variable [Crates] {N : Type} {i : Input RsStrategy} {D : Terms N} {e e' : Engine RsStrategy N}
  {c : ChannelId} {m : MessageId}

/-- Consuming sessions are not ready to be decoded. -/
def Waits (e : Engine RsStrategy N) : Prop := ∀ c m s, e.session? c m = some s → s.Waiting

/-- The session of `(c, m)` is live and `Decoding`. -/
def Decoding (e : Engine RsStrategy N) (c : ChannelId) (m : MessageId) : Prop :=
  ∃ s, e.session? c m = some s ∧ s.state = .decoding

omit [Crates] in
/-- Whether a session is decoding is read off the session. -/
theorem decoding_of_session? (h : e'.session? c m = e.session? c m) :
    e'.Decoding c m ↔ e.Decoding c m := by
  unfold Decoding
  rw [h]

/-- The flag of a chunk that is handed over. -/
theorem takeChunk_completes {s : Session RsStrategy} (hs : e.session? c m = some s) (idx : Nat)
    (data : Bytes) : (e.takeChunk c m idx data).1 = s.completes idx data := by
  obtain ⟨ch, hch, hm⟩ := session?_eq_some.mp hs
  unfold takeChunk Channel.takeChunk Session.completes
  simp only [hch, hm]
  rcases s.takeChunk idx data with ⟨err | outcome, s'⟩ <;> rfl

/-- A chunk without a session completes nothing. -/
theorem takeChunk_of_none (hs : e.session? c m = none) (idx : Nat) (data : Bytes) :
    (e.takeChunk c m idx data).1 = false := by
  unfold takeChunk Channel.takeChunk
  cases hch : e.channels[c]? with
  | none => rfl
  | some ch =>
    have hm : ch.sessions[m]? = none := by simpa [session?, hch] using hs
    simp only [hm]

/-- A chunk leaves the waiting sessions waiting, but for the one it completes. -/
theorem Waits.takeChunk (he : e.Waits) (idx : Nat) (data : Bytes) :
    (e.takeChunk c m idx data).2.Waits := by
  rw [takeChunk_eq]
  intro c' m' s hs
  rw [session?_modifySession] at hs
  split at hs
  · obtain ⟨s₀, hs₀, rfl⟩ := Option.map_eq_some_iff.mp hs
    exact SessionOp.waiting (F := True) (.take s₀ idx data) (he _ _ _ hs₀)
  · exact he c' m' s hs

/-- A chunk that is handed over: the flag is raised exactly if the session turns to `Decoding`. -/
theorem takeChunk_decoding (he : e.Waits) (complete : Bool) (h : complete ↔ e.Decoding c m) (idx : Nat)
    (data : Bytes) :
    (complete || (e.takeChunk c m idx data).1) ↔ (e.takeChunk c m idx data).2.Decoding c m := by
  unfold Decoding at h ⊢
  rw [takeChunk_eq, session?_modifySession_self]
  cases hs : e.session? c m with
  | none =>
    rw [takeChunk_of_none hs]
    simpa [hs] using h
  | some s =>
    rw [takeChunk_completes hs]
    simp only [hs, Option.some.injEq, exists_eq_left', Option.map_some] at h ⊢
    by_cases hdecoding : s.state = .decoding
    · have hstays : (s.takeChunk idx data).2.state = .decoding := by
        rcases s.takeChunk_state idx data with hsame | ⟨-, hdec⟩
        · exact hsame.trans hdecoding
        · exact hdec
      simp [h.mpr hdecoding, hstays]
    · have hflag := ((he c m s hs).takeChunk hdecoding idx data).2
      have hno : complete = false := by simpa using mt h.mp hdecoding
      rw [hno, Bool.false_or]
      exact hflag

/-- A replay says that it completed the session exactly if it did. -/
theorem replayEach_decoding (chunks : List ParkedChunk) (complete : Bool) (he : e.Waits)
    (h : complete ↔ e.Decoding c m) :
    (replayEach c m chunks complete e).1 ↔ (replayEach c m chunks complete e).2.Decoding c m := by
  induction chunks generalizing e complete with
  | nil => exact h
  | cons chunk chunks ih =>
    exact ih _ (he.takeChunk chunk.chunkId chunk.payload)
      (takeChunk_decoding he _ h chunk.chunkId chunk.payload)

variable [Net N]

/-- A drain moves no session to another state. -/
theorem drainSession_decoding (e : Engine RsStrategy N) (c : ChannelId) (m : MessageId) :
    (e.drainSession c m).2.Decoding c m ↔ e.Decoding c m := by
  have hsteps := drainSession_steps e c m
  unfold Decoding
  cases hs : e.session? c m with
  | none =>
    have hnone : (e.drainSession c m).2.session? c m = none :=
      hsteps.induct (fun hstep hn => hstep.session_none hn) hs
    simp [hnone]
  | some s =>
    obtain ⟨s', hs', hstate, -⟩ := hsteps.session hs
    simp [hs', hstate]

/-- **Every action keeps the waiting sessions waiting.** -/
theorem Act.waits (h : Act i D e e') (hfactories : e.RelayFactories) (he : e.Waits) : e'.Waits := by
  intro c m
  have htrans := h.session c m
  have hold := he c m
  generalize e.session? c m = o at htrans hold
  generalize e'.session? c m = o' at htrans ⊢
  cases htrans with
  | kept => exact hold
  | @ops s s' hops =>
    rintro _ ⟨rfl⟩
    exact hops.induct (P := Session.Waiting) (fun hop hs => hop.waiting hs) (hold s rfl)
  | @relay peer preamble update ch strategy factory hi htomb hch hcall =>
    rintro _ ⟨rfl⟩
    obtain ⟨decoded, config, seed, hnew⟩ := hfactories.newRelay hch hcall
    exact (ch.attachAll_ops (F := True) (Session.newRelay strategy)).induct (P := Session.Waiting)
      (fun hop hs => hop.waiting hs) fun _ => newRelayWithSeed_unready hnew
  | @origin strategy preamble ch =>
    rintro _ ⟨rfl⟩
    exact (ch.attachAll_ops (F := True) (Session.newOrigin strategy)).induct (P := Session.Waiting)
      (fun hop hs => hop.waiting hs) nofun
  | removed => nofun

/-! ### The flag of a step -/

/-- The replay up to the decoding: it completed the session exactly if there is something to decode. -/
theorem afterReplay_decoding (he : e.Waits) (h : ¬ e.Decoding c m) :
    (e.afterReplay c m).1 ↔ (e.afterReplay c m).2.Decoding c m := by
  unfold afterReplay
  cases e.parkedChunks[(c, m)]? with
  | none => simpa using h
  | some parked =>
    have hwaits : { e with parkedChunks := e.parkedChunks.erase (c, m) }.Waits := he
    have hflag := replayEach_decoding parked false hwaits
      (c := c) (m := m) (iff_of_false Bool.false_ne_true h)
    dsimp only
    rw [drainSession_decoding]
    exact hflag

end Flag

section Steps

variable [Crates] {A : Premises} {i : Input RsStrategy} {e : Engine RsStrategy Wire}
  {c : ChannelId} {m : MessageId} {k : SessionKey}

/-- The same of a `SessionOpen`. -/
theorem afterOpen_decoding (peer : PeerId) (preamble update : Bytes) (hfactories : e.RelayFactories)
    (he : e.Waits) (h : ¬ e.Decoding c m) :
    (e.afterOpen c m preamble).1 ↔ (e.afterOpen c m preamble).2.Decoding c m := by
  unfold afterOpen
  split
  · simpa using h
  case isFalse htomb =>
    cases hch : e.channels[c]? with
    | none => simpa using h
    | some ch =>
      dsimp only
      rcases hopen : ch.openSession m preamble with ⟨err | _, ch'⟩
      -- the channel refused the session, and its sessions are as they were
      · have hsame : ch'.subscribers = ch.subscribers ∧ ch'.sessions = ch.sessions := by
          rcases Channel.openSession_error hopen with rfl | ⟨factory, -, rfl⟩ <;> exact ⟨rfl, rfl⟩
        have hsession : { e with channels := e.channels.insert c ch' }.session? c m = e.session? c m :=
          congrArg Ledger.session (ledger_insert_same (k := (c, m)) hch hsame.1 hsame.2)
        rw [decoding_of_session? hsession]
        simpa using h
      · have hact : Act (.event (.sessionOpen peer c m preamble update)) Terms.any e
            (e.withRelay c m preamble ch') :=
          .openedRelay rfl (by simpa [isTombstoned] using htomb) hch hopen
        have hdrain : Act (.event (.sessionOpen peer c m preamble update)) Terms.any
            (e.withRelay c m preamble ch') ((e.withRelay c m preamble ch').drainSession c m).2 :=
          .drained trivial
        have hwaits := hdrain.waits (hact.relayFactories (fun _ _ h => by cases h) hfactories)
          (hact.waits hfactories he)
        -- the new relay is consuming, so that only the replay can complete it
        refine afterReplay_decoding hwaits ?_
        rw [drainSession_decoding]
        rintro ⟨s, hs, hstate⟩
        obtain ⟨hm, strategy, factory, -, hch'⟩ := Channel.openSession_ok hopen
        have hsessions : ch'.sessions = ch.sessions.insert m (ch.attachAll (Session.newRelay strategy)) := by
          rw [hch']
        have hnew : (e.withRelay c m preamble ch').session? c m = _ := session?_withRelay preamble hch hsessions
        rw [if_pos ⟨rfl, rfl⟩] at hnew
        obtain rfl := Option.some.inj (hnew.symm.trans hs)
        rw [Channel.attachAll, Session.attachEach_state] at hstate
        cases hstate

/-- The same of a chunk. -/
theorem afterChunk_decoding (chunkId : Nat) (payload : Bytes) (he : e.Waits) (h : ¬ e.Decoding c m) :
    (e.afterChunk c m chunkId payload).1 ↔ (e.afterChunk c m chunkId payload).2.Decoding c m := by
  unfold afterChunk
  split
  · simpa using h
  split
  · have hsession : (e.parkChunk c m chunkId payload).session? c m = e.session? c m := rfl
    rw [decoding_of_session? hsession]
    simpa using h
  · dsimp only
    rw [drainSession_decoding]
    have hflag := takeChunk_decoding he false (c := c) (m := m)
      (iff_of_false Bool.false_ne_true h) chunkId payload
    rwa [Bool.false_or] at hflag

end Steps

end Engine

section Ledger

variable [Crates] {A : Premises} {i : Input RsStrategy} {k : SessionKey} {L L' : Ledger}

/-- Only a chunk brings a session to `Decoding`. -/
theorem LedgerStep.not_decoding (h : LedgerStep A i k L L') (hfeeds : ¬ i.feeds k.1 k.2)
    (hL : ∀ s, L.session = some s → s.state ≠ .decoding) :
    ∀ s, L'.session = some s → s.state ≠ .decoding := by
  cases h with
  | submitted | hosted | openRefused | opened | routed | chunkAccepted | abandoned | parked | unparked
  | swept =>
    exact hL
  | enrolled | unsubscribed | resolved => exact Option.forall_mem_map.mpr hL
  | disconnected =>
    simp only [Ledger.disconnect]
    split
    · exact Option.forall_mem_map.mpr hL
    · exact hL
  | created _ _ hnew =>
    rintro s ⟨rfl⟩
    rw [Session.attachEach_state]
    cases hnew <;> exact fun h => by cases h
  | polled hs | chunkRefused hs | detached _ hs =>
    have hold := hL _ hs
    rintro s ⟨rfl⟩
    exact hold
  | took hi => exact absurd hi hfeeds
  | @decoded s₀ _ _ hs =>
    rintro s ⟨rfl⟩
    -- the decoding is over with the step
    rcases s₀.decodeAndFinish_state with hsame | ⟨-, hdone | hdone⟩
    · rw [hsame]
      exact hL s₀ hs
    · rw [hdone]
      exact fun h => by cases h
    · rw [hdone]
      exact fun h => by cases h
  | disposed => exact fun s hs => by cases hs

/-- The metadata of a live session carries a terminal time exactly if the session is done. -/
def Ledger.Stamped (L : Ledger) : Prop :=
  ∀ s, L.session = some s →
    ∃ info, L.info = some info ∧ (info.terminalAt.isSome ↔ s.state.terminal)

/-- A ledger step that decodes nothing leaves the terminal sessions the ones that are stamped. -/
theorem LedgerStep.stamped (h : LedgerStep A i k L L') (hdecodes : ¬ A.decodes) (hbalanced : L.Balanced)
    (hL : L.Stamped) : L'.Stamped := by
  cases h with
  | submitted | hosted | openRefused | opened | routed | chunkAccepted | abandoned | parked | unparked
  | swept =>
    exact hL
  | enrolled | unsubscribed | resolved => exact Option.forall_mem_map.mpr hL
  | disconnected =>
    simp only [Ledger.Stamped, Ledger.disconnect]
    split
    · exact Option.forall_mem_map.mpr hL
    · exact hL
  | created hnone _ hnew =>
    -- a session that is new has no record yet, and gets one that is not terminal
    have hinfo : L.info = none := by
      rw [← Option.not_isSome_iff_eq_none, hbalanced.info_isSome, hnone]
      exact Bool.false_ne_true
    rintro s ⟨rfl⟩
    refine ⟨_, rfl, ?_⟩
    rw [Session.attachEach_state, hinfo]
    cases hnew <;> simp [SessionState.terminal]
  | polled hs | chunkRefused hs | detached _ hs =>
    have hold := hL _ hs
    rintro s ⟨rfl⟩
    exact hold
  | @took s₀ idx data hi hs =>
    rintro s ⟨rfl⟩
    obtain ⟨info, hinfo, hterm⟩ := hL s₀ hs
    refine ⟨info, hinfo, hterm.trans ?_⟩
    -- a chunk may begin the decoding, which is not terminal
    rcases s₀.takeChunk_state idx data with hsame | ⟨hconsuming, hdecoding⟩
    · rw [hsame]
    · rw [hconsuming, hdecoding]
      exact .rfl
  | decoded hyes => exact absurd hyes hdecodes
  | disposed => exact fun s hs => by cases hs

end Ledger

/-! ## Steps -/

/-- What holds of a live session between events: it is not `Decoding`, and its metadata carries a
terminal time exactly if it is done. -/
structure Ledger.Lawful (L : Ledger) : Prop where
  settled : ∀ s, L.session = some s → s.state ≠ .decoding
  stamped : L.Stamped

namespace Engine

section Steps

variable [Crates] {i : Input RsStrategy} {e e₁ : Engine RsStrategy Wire} {c : ChannelId}
  {m : MessageId} {k : SessionKey}

/-- **A step goes on to decode exactly the session it leaves in `Decoding`.** -/
theorem beforeDecode_decoding (hfactories : e.RelayFactories) (he : e.Waits)
    (hsettled : ∀ k s, (e.ledger k).session = some s → s.state ≠ .decoding) (k : SessionKey) :
    (e.beforeDecode i).2.Decoding k.1 k.2 ↔ (e.beforeDecode i).1 = some k := by
  have hnot : ¬ e.Decoding k.1 k.2 := fun ⟨s, hs, hstate⟩ => hsettled k s hs hstate
  -- an input that feeds the session nothing cannot complete it
  have hquiet : ¬ i.feeds k.1 k.2 → ¬ (e.beforeDecode i).2.Decoding k.1 k.2 := by
    rintro hfeeds ⟨s, hs, hstate⟩
    exact (beforeDecode_ledger (A := .none) i e k False.elim fun _ _ _ _ _ _ => trivial).induct
      (Q := fun L => ∀ s, L.session = some s → s.state ≠ .decoding)
      (fun hstep hL => hstep.not_decoding hfeeds hL) (hsettled k) s hs hstate
  have hflag : ∀ {b : Bool} {k' : SessionKey}, k' = k →
      ((if b then some k' else none) = some k ↔ b) := by
    rintro b k' rfl
    cases b <;> simp
  have hother : ∀ {b : Bool} {k' : SessionKey}, k' ≠ k → (if b then some k' else none) ≠ some k := by
    intro b k' hk
    cases b <;> simp [hk]
  cases i with
  | subscribe | connect | publish | recv => exact iff_of_false (hquiet id) nofun
  | event ev =>
    cases ev with
    | handshake | subscribe | unsubscribe | routingUpdate | peerDisconnected | peerConnected
    | chunkSendResult | peerReconstructed | sessionClosed =>
      exact iff_of_false (hquiet id) nofun
    | sessionOpen peer c m preamble update =>
      by_cases hk : (c, m) = k
      · subst hk
        exact ((hflag rfl).trans (afterOpen_decoding peer preamble update hfactories he hnot)).symm
      · exact iff_of_false (hquiet fun h => hk (Prod.ext h.1 h.2)) (hother hk)
    | chunk peer c m chunkId payload =>
      by_cases hk : (c, m) = k
      · subst hk
        exact ((hflag rfl).trans (afterChunk_decoding chunkId payload he hnot)).symm
      · exact iff_of_false (hquiet fun h => hk (Prod.ext h.1 h.2)) (hother hk)

/-- A decode, in the ledger of any key: what it sends aside, it is `afterDecode`. -/
theorem ledger_maybeDecodeAndDeliver {s : Session RsStrategy} (hs : e.session? c m = some s)
    (k : SessionKey) :
    ∃ log, (e.maybeDecodeAndDeliver c m).ledger k = { (e.afterDecode c m s).ledger k with log } := by
  rw [maybeDecodeAndDeliver_eq]
  simp only [hs]
  cases s.decodeAndFinish.1 with
  | error err => exact ⟨_, rfl⟩
  | ok payload => exact ⟨_, rfl⟩

/-- Decoding a `Decoding` session settles it. -/
theorem maybeDecodeAndDeliver_lawful
    (hdecoding : ∀ k', e.Decoding k'.1 k'.2 ↔ k' = (c, m)) (hstamped : (e.ledger k).Stamped) :
    ((e.maybeDecodeAndDeliver c m).ledger k).Lawful := by
  obtain ⟨s, hs, hstate⟩ := (hdecoding (c, m)).mpr rfl
  obtain ⟨log, hlog⟩ := ledger_maybeDecodeAndDeliver hs k
  rw [hlog, ledger_afterDecode]
  by_cases hk : (c, m) = k
  · subst hk
    have hsession : (e.ledger (c, m)).session = some s := hs
    obtain ⟨info, hinfo, -⟩ := hstamped s hs
    have hdone := Session.decodeAndFinish_settles hstate
    rw [if_pos rfl, if_pos rfl, hsession, hinfo]
    refine ⟨?_, ?_⟩
    · rintro _ ⟨rfl⟩
      rcases hdone with hdone | hdone <;> rw [hdone] <;> nofun
    · rintro _ ⟨rfl⟩
      refine ⟨_, rfl, iff_of_true rfl ?_⟩
      rcases hdone with hdone | hdone <;> rw [hdone] <;> rfl
  · rw [if_neg hk, if_neg hk]
    refine ⟨fun s' hs' hdec => ?_, hstamped⟩
    exact hk ((hdecoding k).mp ⟨s', hs', hdec⟩).symm

/-- What a run keeps between events. -/
structure Orderly (e : Engine RsStrategy Wire) : Prop where
  factories : e.RelayFactories
  waits : e.Waits
  balanced : ∀ k, (e.ledger k).Balanced
  lawful : ∀ k, (e.ledger k).Lawful

/-- A new engine is orderly: it has no sessions. -/
theorem orderly_withConfig (localPeer : PeerId) (net : Wire) (delivered : Sink) (config : EngineConfig)
    (clock : Clock) : (withConfig localPeer net delivered config clock).Orderly where
  factories := relayFactories_withConfig localPeer net delivered config clock
  waits c m s hs := by simp [withConfig, session?] at hs
  balanced := run_balanced localPeer net delivered config clock []
  lawful k := by
    rw [ledger_withConfig]
    exact { settled := by simp, stamped := by simp [Ledger.Stamped] }

/-- Up to its cleanup check, a step settles what it leaves alive. -/
theorem Orderly.beforeSweep (he : e.Orderly) (i : Input RsStrategy) (k : SessionKey) :
    ((e.beforeSweep i).ledger k).Lawful := by
  have hdecoding := beforeDecode_decoding (i := i) he.factories he.waits fun k => (he.lawful k).settled
  have hstamped : ((e.beforeDecode i).2.ledger k).Stamped :=
    ((beforeDecode_ledger (A := .none) i e k False.elim fun _ _ _ _ _ _ => trivial).induct
      (Q := fun L => L.Balanced ∧ L.Stamped)
      (fun hstep hL => ⟨hstep.balanced hL.1, hstep.stamped id hL.1 hL.2⟩)
      ⟨he.balanced k, (he.lawful k).stamped⟩).2
  unfold Engine.beforeSweep
  rcases hbefore : e.beforeDecode i with ⟨_ | k', e₁⟩ <;> rw [hbefore] at hdecoding hstamped
  · refine ⟨fun s hs hstate => ?_, hstamped⟩
    cases (hdecoding k).mp ⟨s, hs, hstate⟩
  · refine maybeDecodeAndDeliver_lawful (fun k'' => (hdecoding k'').trans ?_) hstamped
    exact ⟨fun h => (Option.some.inj h).symm, fun h => congrArg some h.symm⟩

/-- **A step keeps the engine orderly.** -/
theorem Orderly.step (he : e.Orderly) (hi : HostsRelays i) : (e.step i).2.Orderly := by
  have hbalanced : ∀ k, ((e.beforeSweep i).ledger k).Balanced := fun k =>
    (Acts.ledger (A := { Premises.none with sweeps := False })
      (beforeSweep_acts trivial i e fun _ _ _ _ _ _ => trivial) False.elim k).induct
      (fun hstep hL => hstep.balanced hL) (he.balanced k)
  have hsweep : ∀ k, ((e.step i).2.ledger k).Balanced ∧ ((e.step i).2.ledger k).Lawful := fun k =>
    (afterSweep_ledger i e k).induct (Q := fun L => L.Balanced ∧ L.Lawful)
      (fun hstep hL => ⟨hstep.balanced hL.1, hstep.not_decoding id hL.2.settled,
        hstep.stamped id hL.1 hL.2.stamped⟩) ⟨hbalanced k, he.beforeSweep i k⟩
  have hwaits := (step_acts i e).induct (P := fun e => e.RelayFactories ∧ e.Waits)
    (fun hact he => ⟨hact.relayFactories hi he.1, hact.waits he.1 he.2⟩) ⟨he.factories, he.waits⟩
  exact ⟨hwaits.1, hwaits.2, fun k => (hsweep k).1, fun k => (hsweep k).2⟩

/-! ## Runs -/

/-- Outside sweeps a live session stays live, and what happens to it is operations. -/
theorem Acts.ops {D : Terms Wire} {e' : Engine RsStrategy Wire} {s : Session RsStrategy}
    (h : Acts i D e e') (hsweeps : ¬ D.sweeps) (hs : e.session? c m = some s) :
    ∃ s', e'.session? c m = some s' ∧ SessionOps D.decodes s s' := by
  refine h.induct (P := fun e' => ∃ s', e'.session? c m = some s' ∧ SessionOps D.decodes s s')
    (fun {e₁ e₂} hact hold => ?_) ⟨s, hs, .refl⟩
  obtain ⟨s₁, hs₁, hops⟩ := hold
  have htrans := hact.session c m
  rw [hs₁] at htrans
  generalize e₂.session? c m = o at htrans ⊢
  cases htrans with
  | kept => exact ⟨s₁, rfl, hops⟩
  | ops hops' => exact ⟨_, rfl, hops.trans hops'⟩
  | removed hyes => exact absurd hyes hsweeps

/-- A session that lives through a step advances. -/
theorem Orderly.advances (he : e.Orderly) {s s' : Session RsStrategy} (hs : e.session? c m = some s)
    (hs' : (e.step i).2.session? c m = some s') : s.Advances s' := by
  obtain ⟨s₁, hs₁, hops⟩ := Acts.ops (beforeSweep_acts (D := Terms.beforeSweep) trivial i e
    fun _ _ => trivial) id hs
  have hsettled : s₁.state ≠ .decoding := (he.beforeSweep i (c, m)).settled s₁ hs₁
  have hsame : s' = s₁ := by
    rw [step_eq] at hs'
    cases i with
    | event ev =>
      rcases maybeRunCleanup_key (e.beforeSweep (.event ev)) c m with ⟨hk, -⟩ | ⟨hk, -⟩ | ⟨hk, -⟩ <;>
        rw [hk] at hs'
      · exact Option.some.inj (hs'.symm.trans hs₁)
      · cases hs'
      · exact Option.some.inj (hs'.symm.trans hs₁)
    | subscribe | connect | publish | recv => exact Option.some.inj (hs'.symm.trans hs₁)
  rw [hsame]
  exact hops.advances ((he.lawful (c, m)).settled s hs) hsettled

/-- Every session that lives through `mid`, after `pre`, advances. -/
def SessionsAdvance (e : Engine RsStrategy Wire) (inputs : List (Input RsStrategy)) : Prop :=
  ∀ pre mid post, inputs = pre ++ mid ++ post → ∀ c m s s',
    (∀ l l', mid = l ++ l' → ((e.run (pre ++ l)).session? c m).isSome) →
    (e.run pre).session? c m = some s → (e.run (pre ++ mid)).session? c m = some s' → s.Advances s'

/-- **The lifecycle invariant**: between events no session is `Decoding`, terminal metadata marks
exactly the sessions that are done, and a session only moves from `Consuming` to `Reconstructed` or
`Failed`, and holds then what it holds. -/
theorem run_lifecycle (localPeer : PeerId) (net : Wire) (delivered : Sink) (config : EngineConfig)
    (clock : Clock) (inputs : List (Input RsStrategy)) (hhosts : ∀ i ∈ inputs, HostsRelays i) :
    (∀ c m s, ((withConfig localPeer net delivered config clock).run inputs).session? c m = some s →
      s.state ≠ .decoding
      ∧ ∃ info, ((withConfig localPeer net delivered config clock).run inputs).sessionMeta[(c, m)]?
          = some info
        ∧ (info.terminalAt.isSome ↔ s.state = .reconstructed ∨ s.state = .failed))
    ∧ SessionsAdvance (withConfig localPeer net delivered config clock) inputs := by
  have horderly : ∀ l, (∀ i ∈ l, HostsRelays i) →
      ((withConfig localPeer net delivered config clock).run l).Orderly := fun l hl =>
    run_induct (P := Orderly) (fun e i hi he => he.step (hl i hi)) (orderly_withConfig ..)
  refine ⟨fun c m s hs => ?_, ?_⟩
  · have hlawful := (horderly inputs hhosts).lawful (c, m)
    obtain ⟨info, hinfo, hterminal⟩ := hlawful.stamped s hs
    refine ⟨hlawful.settled s hs, info, hinfo, hterminal.trans ?_⟩
    cases s.state <;> simp [SessionState.terminal]
  -- by induction on the inputs through which the session lives
  · rintro pre mid post rfl c m s s' hlive hs hs'
    induction mid using List.reverseRecOn generalizing post s' with
    | nil =>
      rw [List.append_nil] at hs'
      obtain rfl := Option.some.inj (hs.symm.trans hs')
      exact .refl s
    | append_singleton mid i ih =>
      obtain ⟨s₁, hs₁⟩ := Option.isSome_iff_exists.mp (hlive mid [i] rfl)
      rw [← List.append_assoc, run_concat] at hs'
      have hfirst := ih (i :: post) (fun j hj => hhosts j (by simpa using hj)) s₁
        (fun l l' hl => hlive l (l' ++ [i]) (by rw [hl, List.append_assoc])) hs₁
      refine hfirst.trans ((horderly (pre ++ mid) fun j hj => hhosts j ?_).advances hs₁ hs')
      simp only [List.mem_append] at hj ⊢
      tauto

end Steps

section OneShard

attribute [local instance] oneShard

/-- A message is received: its session is opened, and its one data shard comes in, twice. -/
def receiveTwice : List (Input RsStrategy) :=
  [.subscribe "c" (rsRelayFactory {} fun _ => 7),
    .event (.sessionOpen 0 "c" "m" (OneShard.preambleBytes OneShard.preamble) []),
    .event (.chunk 0 "c" "m" 0 [1]), .event (.chunk 0 "c" "m" 0 [1])]

/-- A relay receives a message, and one of its chunks twice. -/
theorem run_lifecycle_received :
    (∀ i ∈ receiveTwice, HostsRelays i)
    ∧ (∃ s, ((nodeTicking second).run receiveTwice).session? "c" "m" = some s
      ∧ s.state = .reconstructed
      ∧ ∃ info, ((nodeTicking second).run receiveTwice).sessionMeta[("c", "m")]? = some info
        ∧ info.terminalAt.isSome)
    ∧ SessionsAdvance (nodeTicking second) receiveTwice := by
  have hhosts : ∀ i ∈ receiveTwice, HostsRelays i := by
    rintro i hi c factory rfl
    simp only [receiveTwice, List.mem_cons, Input.subscribe.injEq, reduceCtorEq, List.not_mem_nil,
      or_false] at hi
    exact ⟨_, _, hi.2⟩
  have hdone : (((nodeTicking second).run receiveTwice).session? "c" "m").any
      (·.state = .reconstructed) = true := by
    decide +kernel
  obtain ⟨s, hs, hstate⟩ := (Option.any_eq_true _ _).mp hdone
  have hstate : s.state = .reconstructed := of_decide_eq_true hstate
  obtain ⟨hlawful, hadvance⟩ := run_lifecycle 0 ⟨fun _ _ => .ok (), []⟩ ⟨8, [], false⟩ {}
    ⟨fun n => n * second, 0⟩ receiveTwice hhosts
  obtain ⟨-, info, hinfo, hterminal⟩ := hlawful "c" "m" s hs
  exact ⟨hhosts, ⟨s, hs, hstate, info, hinfo, hterminal.mpr (.inl hstate)⟩, hadvance⟩

end OneShard

end Engine

end Ethp2p
