/-
# Ethp2p.AtMostOnce — two deliveries of one message.

A delivered session is `Reconstructed`, and a `Reconstructed` session never decodes again.  A sweep
disposes it and leaves a tombstone; while that stands, no `SessionOpen` creates a session of the key
(a `publish` may, but an origin session never decodes).  So a second delivery of the key needs a
disposal AND a later sweep that expired the tombstone, which a sweep only does more than
`tombstone_ttl` after its stamp.

`Aftermath` is that argument as an invariant of the run after the first delivery: the session is still
there, or buried, or its tombstone has expired.
-/
import Ethp2p.Deliveries

namespace Ethp2p

open Std

namespace Clock

/-- The last reading taken. -/
def last (c : Clock) : Instant := c.reading (c.calls - 1)

/-- The same clock, no earlier. -/
def Later (c c' : Clock) : Prop := c'.reading = c.reading ∧ c.calls ≤ c'.calls

theorem Later.refl (c : Clock) : Later c c := ⟨rfl, le_rfl⟩

theorem Later.trans {c c' c'' : Clock} (h : Later c c') (h' : Later c' c'') : Later c c'' :=
  ⟨h'.1.trans h.1, h.2.trans h'.2⟩

theorem later_now (c : Clock) : Later c c.now.2 := ⟨rfl, Nat.le_succ _⟩

/-- A later clock has read a later time, if time does not go back. -/
theorem Later.last_le {c c' : Clock} (h : Later c c') (hmono : Monotone c.reading) :
    c.last ≤ c'.last := by
  unfold last
  rw [h.1]
  exact hmono (Nat.sub_le_sub_right h.2 1)

end Clock

namespace Engine

variable {N : Type} {i : Input RsStrategy} {D : Terms N} {e e' : Engine RsStrategy N}
  {c : ChannelId} {m : MessageId}

/-! ## What lasts -/

/-- The configuration stays and the clock only advances. -/
def Lasting (e e' : Engine RsStrategy N) : Prop := e'.config = e.config ∧ e.clock.Later e'.clock

theorem Lasting.refl (h : e'.config = e.config) (hclock : e'.clock = e.clock) : Lasting e e' :=
  ⟨h, hclock ▸ .refl _⟩

theorem Lasting.trans {e'' : Engine RsStrategy N} (h : Lasting e e') (h' : Lasting e' e'') :
    Lasting e e'' :=
  ⟨h'.1.trans h.1, h.2.trans h'.2⟩

/-- Recording a session reads the clock and leaves the configuration. -/
theorem recordSessionCreated_lasting (e : Engine RsStrategy N) (c : ChannelId) (m : MessageId) :
    Lasting e (e.recordSessionCreated c m) := by
  unfold recordSessionCreated
  split
  · exact .refl rfl rfl
  · exact ⟨rfl, e.clock.later_now⟩

theorem markSessionTerminal_lasting (e : Engine RsStrategy N) (c : ChannelId) (m : MessageId) :
    Lasting e (e.markSessionTerminal c m) := by
  unfold markSessionTerminal
  split
  · exact .refl rfl rfl
  · split
    · exact .refl rfl rfl
    · exact ⟨rfl, e.clock.later_now⟩

section Steps

variable [Crates]

theorem afterDecode_lasting (e : Engine RsStrategy N) (c : ChannelId) (m : MessageId)
    (s : Session RsStrategy) : Lasting e (e.afterDecode c m s) := by
  have hmark := markSessionTerminal_lasting (e.modifySession c m fun _ => s.decodeAndFinish.2) c m
  unfold afterDecode
  dsimp only
  split <;> exact hmark

variable [Net N]

/-- Every action leaves the configuration, and the clock goes on. -/
theorem Act.lasting (h : Act i D e e') : Lasting e e' := by
  cases h with
  | hosted | announced | registered | greeted | rejected | enrolled | unsubscribed | disconnected
  | refusedOpen | unparked | resolved | detached | disposed | swept | scheduled | received =>
    exact .refl rfl rfl
  | parked | ticked => exact ⟨rfl, e.clock.later_now⟩
  | openedRelay | startedOrigin =>
    exact recordSessionCreated_lasting { e with channels := _, sessionPreambles := _ } _ _
  | @ensured c m peer hto =>
    have hframe := (ensureSessionOpen_steps e c m peer (.inl hto)).frame
    exact .refl hframe.config_eq hframe.clock_eq
  | @drained c m =>
    have hframe := (drainSession_steps e c m).frame
    exact .refl hframe.config_eq hframe.clock_eq
  | took =>
    rw [takeChunk_eq]
    exact .refl rfl rfl
  | decoded => exact afterDecode_lasting ..

theorem step_lasting (e : Engine RsStrategy N) (i : Input RsStrategy) : Lasting e (e.step i).2 :=
  (step_acts i e).induct (P := Lasting e) (fun hact h => h.trans hact.lasting) (.refl rfl rfl)

/-- Every run leaves the configuration, and the clock goes on. -/
theorem run_lasting (e : Engine RsStrategy N) (inputs : List (Input RsStrategy)) :
    Lasting e (e.run inputs) := by
  induction inputs using List.reverseRecOn with
  | nil => exact .refl rfl rfl
  | append_singleton inputs i ih =>
    rw [run_concat]
    exact ih.trans (step_lasting _ _)

/-- Outside sweeps no tombstone changes. -/
theorem Act.tombstones_eq (h : Act i D e e') (hsweeps : ¬ D.sweeps) :
    e'.tombstones = e.tombstones := by
  cases h with
  | hosted | announced | registered | greeted | rejected | enrolled | unsubscribed | disconnected
  | refusedOpen | parked | unparked | resolved | detached | ticked | scheduled | received => rfl
  | openedRelay | startedOrigin =>
    obtain ⟨clock, sessionMeta, hrelay⟩ := withRelay_eq e _ _ _ _
    rw [hrelay]
  | ensured hto => exact (ensureSessionOpen_steps e _ _ _ (.inl hto)).frame.tombstones_eq
  | drained => exact (drainSession_steps e _ _).frame.tombstones_eq
  | took => rw [takeChunk_eq]; rfl
  | @decoded c m session =>
    obtain ⟨clock, sessionMeta, delivered, hdecode, -⟩ := e.afterDecode_eq c m session
    rw [hdecode]
    rfl
  | disposed hyes | swept hyes => exact absurd hyes hsweeps

/-! ## A spent key -/

/-- The tombstone of `(c, m)` stands since `at_`, and no session of the key is a relay's. -/
def Buried (e : Engine RsStrategy N) (c : ChannelId) (m : MessageId) (at_ : Instant) : Prop :=
  e.tombstones[(c, m)]? = some at_ ∧ ∀ s, e.session? c m = some s → s.state = .origin

/-- A reconstructed session stays reconstructed until a sweep. -/
theorem Act.keeps_reconstructed (h : Act i D e e') (hsweeps : ¬ D.sweeps)
    (he : e.Reconstructed c m) : e'.Reconstructed c m := by
  obtain ⟨s, hs, hstate⟩ := he
  have htrans := h.session c m
  rw [hs] at htrans
  unfold Reconstructed
  generalize e'.session? c m = o at htrans ⊢
  cases htrans with
  | kept => exact ⟨s, rfl, hstate⟩
  | @ops _ s' hops =>
    refine ⟨s', rfl, ?_⟩
    rw [hops.state_eq (by simp [hstate]) (by simp [hstate]), hstate]
  | removed hyes => exact absurd hyes hsweeps

/-- A buried key stays buried until a sweep. -/
theorem Act.keeps_buried {at_ : Instant} (h : Act i D e e') (hsweeps : ¬ D.sweeps)
    (he : e.Buried c m at_) : e'.Buried c m at_ := by
  obtain ⟨htomb, horigin⟩ := he
  refine ⟨by rw [h.tombstones_eq hsweeps, htomb], ?_⟩
  have htrans := h.session c m
  generalize e.session? c m = o at htrans horigin
  generalize e'.session? c m = o' at htrans ⊢
  cases htrans with
  | kept => exact horigin
  | @ops s s' hops =>
    have hstate := horigin s rfl
    intro s₁ hs₁
    obtain rfl := Option.some.inj hs₁
    rw [hops.state_eq (by simp [hstate]) (by simp [hstate]), hstate]
  | relay _ hno =>
    rw [BTreeMap.mem_iff_get] at hno
    exact absurd ⟨at_, htomb⟩ hno
  | @origin strategy preamble ch =>
    intro s₁ hs₁
    obtain rfl := Option.some.inj hs₁
    exact (ch.attachAll_ops (F := False) (Session.newOrigin strategy)).state_eq
      (by simp [Session.newOrigin]) (by simp [Session.newOrigin])
  | removed hyes => exact absurd hyes hsweeps

/-- The terms of a step up to its cleanup check. -/
abbrev Terms.beforeSweep : Terms N := ⟨fun _ _ => True, True, False⟩

/-- What the actions before the sweep keep holds before the sweep. -/
theorem beforeSweep_keeps {P : Engine RsStrategy N → Prop} (e : Engine RsStrategy N)
    (i : Input RsStrategy)
    (hact : ∀ {e e'}, Act i Terms.beforeSweep e e' → P e → P e') (he : P e) :
    P (e.beforeSweep i) :=
  (beforeSweep_acts (D := Terms.beforeSweep) trivial i e fun _ _ => trivial).induct hact he

/-- What the actions before the decoding keep holds before the decoding. -/
theorem beforeDecode_keeps {P : Engine RsStrategy N → Prop} (e : Engine RsStrategy N)
    (i : Input RsStrategy)
    (hact : ∀ {e e'}, Act i Terms.handling e e' → P e → P e') (he : P e) :
    P (e.beforeDecode i).2 :=
  (beforeDecode_handling e i).induct hact he

/-- A reconstructed session is not delivered again. -/
theorem not_emission_of_reconstructed {d : DeliveredMessage} {e₁ : Engine RsStrategy N}
    (he : e.Reconstructed d.channelId d.messageId) : e.emission i ≠ some (d, e₁) := by
  intro h
  have hmust := (emission_iff_reconstructs e i d.channelId d.messageId).mp ⟨d.payload, e₁, h⟩
  exact hmust.1 he

/-- A buried key is not delivered. -/
theorem not_emission_of_buried {d : DeliveredMessage} {e₁ : Engine RsStrategy N} {at_ : Instant}
    (he : e.Buried d.channelId d.messageId at_) : e.emission i ≠ some (d, e₁) := by
  intro h
  have hburied := beforeDecode_keeps e i (P := fun e => e.Buried d.channelId d.messageId at_)
    (fun hact => hact.keeps_buried id) he
  obtain ⟨e₀, s, hbefore, hs, hstate, -, -⟩ := emission_eq_some h
  rw [hbefore] at hburied
  simp [hburied.2 s hs] at hstate

end Steps

/-! ## Sweeps -/

/-- What disposing sessions at `now` does to one key. -/
theorem disposeEach_key (keys : List SessionKey) (now : Instant) (e : Engine RsStrategy N)
    (c : ChannelId) (m : MessageId) :
    let e' := keys.foldl (fun e k => e.disposeSession k.1 k.2 now) e
    (e'.session? c m = e.session? c m ∧ e'.tombstones[(c, m)]? = e.tombstones[(c, m)]?)
      ∨ (e'.session? c m = none ∧ e'.tombstones[(c, m)]? = some now) := by
  induction keys generalizing e with
  | nil => exact .inl ⟨rfl, rfl⟩
  | cons k keys ih =>
    have hsession := session?_disposeSession e c k.1 m k.2 now
    have htomb : (e.disposeSession k.1 k.2 now).tombstones[(c, m)]?
        = if (k.1, k.2) = (c, m) then some now else e.tombstones[(c, m)]? :=
      BTreeMap.get_insert ..
    rcases ih (e.disposeSession k.1 k.2 now) with ⟨hs, ht⟩ | hgone
    · rw [hsession] at hs
      rw [htomb] at ht
      by_cases hk : k.1 = c ∧ k.2 = m
      · rw [if_pos hk] at hs
        rw [if_pos (by rw [hk.1, hk.2])] at ht
        exact .inr ⟨hs, ht⟩
      · rw [if_neg hk] at hs
        rw [if_neg fun h => hk (Prod.mk.inj h)] at ht
        exact .inl ⟨hs, ht⟩
    · exact .inr hgone

/-- What a sweep at `now` does to one key. -/
theorem runCleanup_key (e : Engine RsStrategy N) (now : Instant) (c : ChannelId) (m : MessageId) :
    ((e.runCleanup now).session? c m = e.session? c m
        ∧ (e.runCleanup now).tombstones[(c, m)]? = e.tombstones[(c, m)]?)
      ∨ ((e.runCleanup now).session? c m = none
        ∧ (e.runCleanup now).tombstones[(c, m)]? = some now)
      ∨ ((e.runCleanup now).session? c m = e.session? c m
        ∧ (e.runCleanup now).tombstones[(c, m)]? = none
        ∧ ∃ at_, e.tombstones[(c, m)]? = some at_ ∧ at_ + e.config.tombstoneTtl < now) := by
  have hkey := disposeEach_key (e.expiredKeys now) now e c m
  have hconfig : ((e.expiredKeys now).foldl (fun e k => e.disposeSession k.1 k.2 now) e).config
      = e.config := by
    obtain ⟨_, _, _, _, _, _, _, hframe⟩ := disposeEach_frame (e.expiredKeys now) now e
    rw [hframe]
  unfold runCleanup
  generalize (e.expiredKeys now).foldl (fun e k => e.disposeSession k.1 k.2 now) e = e₁ at *
  have htomb : (e₁.tombstones.filter fun _ at_ => now - at_ ≤ e₁.config.tombstoneTtl)[(c, m)]?
      = e₁.tombstones[(c, m)]?.filter fun at_ => now - at_ ≤ e.config.tombstoneTtl := by
    rw [BTreeMap.get_filter, hconfig]
  -- the session was left alone, and its tombstone stands or has expired; or it was disposed just now
  rcases hkey with ⟨hs, ht⟩ | ⟨hs, ht⟩
  · rw [ht] at htomb
    cases hat : e.tombstones[(c, m)]? with
    | none =>
      rw [hat] at htomb
      exact .inl ⟨hs, htomb⟩
    | some at_ =>
      rw [hat, Option.filter_some] at htomb
      split at htomb
      · exact .inl ⟨hs, htomb⟩
      case isFalse hold =>
        refine .inr (.inr ⟨hs, htomb, at_, rfl, ?_⟩)
        simp only [decide_eq_true_eq, Nat.not_le] at hold
        exact Nat.lt_sub_iff_add_lt'.mp hold
  · rw [ht, Option.filter_some, if_pos (by simp)] at htomb
    exact .inr (.inl ⟨hs, htomb⟩)

/-- **What the cleanup check does to one key**: nothing, or it disposes the session and stamps a
tombstone, or it expires a tombstone older than `tombstone_ttl`. -/
theorem maybeRunCleanup_key (e : Engine RsStrategy N) (c : ChannelId) (m : MessageId) :
    (e.maybeRunCleanup.session? c m = e.session? c m
        ∧ e.maybeRunCleanup.tombstones[(c, m)]? = e.tombstones[(c, m)]?)
      ∨ (e.maybeRunCleanup.session? c m = none
        ∧ e.maybeRunCleanup.tombstones[(c, m)]? = some e.clock.time)
      ∨ (e.maybeRunCleanup.session? c m = e.session? c m
        ∧ e.maybeRunCleanup.tombstones[(c, m)]? = none
        ∧ ∃ at_, e.tombstones[(c, m)]? = some at_
          ∧ at_ + e.config.tombstoneTtl < e.clock.time) := by
  unfold maybeRunCleanup
  dsimp only
  split
  · exact .inl ⟨rfl, rfl⟩
  · exact runCleanup_key ..

/-- The cleanup check takes one reading. -/
theorem maybeRunCleanup_clock (e : Engine RsStrategy N) :
    e.maybeRunCleanup.clock = e.clock.now.2 := by
  unfold maybeRunCleanup
  dsimp only
  split
  · rfl
  · exact disposeEach_clock ..

/-! ## After a delivery -/

section Runs

variable [Crates] [Net N]

/-- The sweep of the step disposes the session of `(c, m)`. -/
def Disposes (e : Engine RsStrategy N) (i : Input RsStrategy) (c : ChannelId) (m : MessageId) :
    Prop :=
  (e.beforeSweep i).session? c m ≠ none ∧ (e.step i).2.session? c m = none

instance (e : Engine RsStrategy N) (i : Input RsStrategy) (c : ChannelId) (m : MessageId) :
    Decidable (e.Disposes i c m) :=
  inferInstanceAs (Decidable (_ ∧ _))

/-- The sweep of the step expires the tombstone of `(c, m)`. -/
def Expires (e : Engine RsStrategy N) (i : Input RsStrategy) (c : ChannelId) (m : MessageId) :
    Prop :=
  (c, m) ∈ (e.beforeSweep i).tombstones ∧ (c, m) ∉ (e.step i).2.tombstones

/-- What the end of a step does to one key, its last reading being the time of the sweep. -/
theorem step_key (e : Engine RsStrategy N) (i : Input RsStrategy) (c : ChannelId) (m : MessageId) :
    ((e.step i).2.session? c m = (e.beforeSweep i).session? c m
        ∧ (e.step i).2.tombstones[(c, m)]? = (e.beforeSweep i).tombstones[(c, m)]?)
      ∨ ((e.step i).2.session? c m = none
        ∧ (e.step i).2.tombstones[(c, m)]? = some (e.step i).2.clock.last)
      ∨ ((e.step i).2.session? c m = (e.beforeSweep i).session? c m
        ∧ (e.step i).2.tombstones[(c, m)]? = none
        ∧ ∃ at_, (e.beforeSweep i).tombstones[(c, m)]? = some at_
          ∧ at_ + e.config.tombstoneTtl < (e.step i).2.clock.last) := by
  have hconfig : (e.beforeSweep i).config = e.config :=
    (beforeSweep_keeps (P := Lasting e) e i (fun hact h => h.trans hact.lasting) (.refl rfl rfl)).1
  rw [step_eq, ← hconfig]
  cases i with
  | subscribe | connect | publish | recv => exact .inl ⟨rfl, rfl⟩
  | event ev =>
    have hkey := maybeRunCleanup_key (e.beforeSweep (.event ev)) c m
    have hlast : (e.beforeSweep (.event ev)).maybeRunCleanup.clock.last
        = (e.beforeSweep (.event ev)).clock.time := by
      rw [maybeRunCleanup_clock]
      rfl
    rwa [← hlast] at hkey

/-- The run `l` after a delivery of `(c, m)` at `t`: where its session has gone. -/
inductive Aftermath (e : Engine RsStrategy N) (c : ChannelId) (m : MessageId) (t : Instant)
    (l : List (Input RsStrategy)) : Prop
  /-- The session is still there. -/
  | live (h : (e.run l).Reconstructed c m)
  /-- It was disposed, and its tombstone stands. -/
  | buried {before i between at_} (hl : l = before ++ i :: between)
      (hdisposes : (e.run before).Disposes i c m) (hburied : (e.run l).Buried c m at_)
      (hat : t ≤ at_)
  /-- It was disposed, and its tombstone expired. -/
  | expired {before i between j after} (hl : l = before ++ i :: (between ++ j :: after))
      (hdisposes : (e.run before).Disposes i c m)
      (hexpires : (e.run (before ++ i :: between)).Expires j c m)
      (ht : t + e.config.tombstoneTtl < (e.run l).clock.last)

variable {l : List (Input RsStrategy)} {t : Instant}

/-- A reconstructed session at the end of a step is kept or disposed. -/
theorem Aftermath.of_reconstructed (i : Input RsStrategy)
    (h : ((e.run l).beforeSweep i).Reconstructed c m) (ht : t ≤ ((e.run l).step i).2.clock.last) :
    Aftermath e c m t (l ++ [i]) := by
  have hrun := run_concat e l i
  rcases step_key (e.run l) i c m with ⟨hs, -⟩ | ⟨hs, htomb⟩ | ⟨hs, -, -⟩
  · exact .live (by rwa [hrun, reconstructed_of_session? hs])
  · obtain ⟨s, hmid, -⟩ := h
    refine .buried rfl ⟨by simp [hmid], hs⟩ ?_ ht
    rw [hrun]
    exact ⟨htomb, fun s hs' => by simp [hs] at hs'⟩
  · exact .live (by rwa [hrun, reconstructed_of_session? hs])

/-- A tombstone at the end of a step is kept, stamped anew, or expired. -/
theorem Aftermath.of_buried {before between : List (Input RsStrategy)} {i : Input RsStrategy}
    {at_ : Instant} (j : Input RsStrategy) (hl : l = before ++ i :: between)
    (hdisposes : (e.run before).Disposes i c m) (h : ((e.run l).beforeSweep j).Buried c m at_)
    (hat : t ≤ at_) (ht : t ≤ ((e.run l).step j).2.clock.last) :
    Aftermath e c m t (l ++ [j]) := by
  have hrun := run_concat e l j
  have hl' : l ++ [j] = before ++ i :: (between ++ [j]) := by simp [hl]
  rcases step_key (e.run l) j c m with ⟨hs, htomb⟩ | ⟨hs, htomb⟩ | ⟨-, hnone, at', hat', hold⟩
  · refine .buried hl' hdisposes ?_ hat
    rw [hrun]
    exact ⟨by rw [htomb, h.1], by rw [hs]; exact h.2⟩
  · refine .buried hl' hdisposes ?_ ht
    rw [hrun]
    exact ⟨htomb, fun s hs' => by simp [hs] at hs'⟩
  · obtain rfl := Option.some.inj (h.1.symm.trans hat')
    refine .expired hl' hdisposes ⟨?_, ?_⟩ ?_
    · rw [← hl]
      exact (BTreeMap.mem_iff_get _ _).mpr ⟨at_, hat'⟩
    · rw [← hl, BTreeMap.mem_iff_get]
      simp [hnone]
    · rw [hrun, ← (run_lasting e l).1]
      exact (Nat.add_le_add_right hat _).trans_lt hold

/-- **Every step keeps the aftermath.** -/
theorem Aftermath.concat (h : Aftermath e c m t l) (hmono : Monotone e.clock.reading)
    (ht : t ≤ (e.run l).clock.last) (j : Input RsStrategy) : Aftermath e c m t (l ++ [j]) := by
  have hlater : (e.run l).clock.last ≤ ((e.run l).step j).2.clock.last :=
    (step_lasting (e.run l) j).2.last_le (by rwa [(run_lasting e l).2.1])
  cases h with
  | live h =>
    refine .of_reconstructed j ?_ (ht.trans hlater)
    exact beforeSweep_keeps (P := fun e => e.Reconstructed c m) _ j
      (fun hact => hact.keeps_reconstructed id) h
  | @buried before i between at_ hl hdisposes hburied hat =>
    refine .of_buried j hl hdisposes ?_ hat (ht.trans hlater)
    exact beforeSweep_keeps (P := fun e => e.Buried c m at_) _ j
      (fun hact => hact.keeps_buried id) hburied
  | @expired before i between j' after hl hdisposes hexpires hold =>
    have hl' : l ++ [j] = before ++ i :: (between ++ j' :: (after ++ [j])) := by simp [hl]
    refine .expired hl' hdisposes hexpires ?_
    rw [run_concat]
    exact hold.trans_le hlater

/-- The aftermath of the first delivery, up to any later point of the run. -/
theorem aftermath_of_emission {d : DeliveredMessage} {e₁ : Engine RsStrategy N}
    (hmono : Monotone e.clock.reading) (h : e.emission i = some (d, e₁))
    (mid : List (Input RsStrategy)) :
    Aftermath e d.channelId d.messageId (e.step i).2.clock.last (i :: mid) := by
  induction mid using List.reverseRecOn with
  | nil =>
    have hrec := (emission_iff_reconstructs e i d.channelId d.messageId).mp ⟨d.payload, e₁, h⟩
    exact .of_reconstructed (l := []) i hrec.2 le_rfl
  | append_singleton mid j ih =>
    rw [← List.cons_append]
    refine ih.concat hmono ?_ j
    have hrun : e.run (i :: mid) = (e.step i).2.run mid := rfl
    rw [hrun]
    exact (run_lasting (e.step i).2 mid).2.last_le (by rwa [(step_lasting e i).2.1])

/-- **At most one delivery per message and tombstone.**  In every run of an engine whose clock never
goes back, between two steps that deliver a message of the same key a sweep disposed the session and
a later sweep expired its tombstone.  The last reading before the second step is more than
`tombstone_ttl` after the one that ended the first. -/
theorem run_delivers_once (localPeer : PeerId) (net : N) (delivered : Sink) (config : EngineConfig)
    (clock : Clock) (hmono : Monotone clock.reading) (pre mid : List (Input RsStrategy))
    (i j : Input RsStrategy) (d d' : DeliveredMessage) (e₁ e₂ : Engine RsStrategy N)
    (hfirst : ((withConfig localPeer net delivered config clock).run pre).emission i
      = some (d, e₁))
    (hsecond : ((withConfig localPeer net delivered config clock).run (pre ++ i :: mid)).emission j
      = some (d', e₂))
    (hc : d'.channelId = d.channelId) (hm : d'.messageId = d.messageId) :
    (∃ before a between b after, i :: mid = before ++ a :: (between ++ b :: after)
      ∧ ((withConfig localPeer net delivered config clock).run (pre ++ before)).Disposes a
          d.channelId d.messageId
      ∧ ((withConfig localPeer net delivered config clock).run
          (pre ++ before ++ a :: between)).Expires b d.channelId d.messageId)
    ∧ ((withConfig localPeer net delivered config clock).run (pre ++ [i])).clock.last
        + config.tombstoneTtl
      < ((withConfig localPeer net delivered config clock).run (pre ++ i :: mid)).clock.last := by
  have hlasting := run_lasting (withConfig localPeer net delivered config clock) pre
  have happend : ∀ l, (withConfig localPeer net delivered config clock).run (pre ++ l)
      = ((withConfig localPeer net delivered config clock).run pre).run l := fun l => by
    simp [run]
  simp only [List.append_assoc, happend] at hsecond ⊢
  generalize (withConfig localPeer net delivered config clock).run pre = e at *
  have hafter := aftermath_of_emission (by rw [hlasting.2.1]; exact hmono) hfirst mid
  rw [← hc, ← hm] at hafter
  -- what has become of the session meanwhile: it is live and done, or buried, or its tombstone has expired
  cases hafter with
  | live h => exact absurd hsecond (not_emission_of_reconstructed h)
  | buried _ _ h => exact absurd hsecond (not_emission_of_buried h)
  | @expired before a between b after hl hdisposes hexpires ht =>
    rw [hlasting.1] at ht
    rw [← hc, ← hm]
    exact ⟨⟨before, a, between, b, after, hl, hdisposes, hexpires⟩, ht⟩

end Runs

section OneShard

attribute [local instance] oneShard

/-- A relay whose clock advances by 200 seconds at every reading. -/
def slowNode : Engine RsStrategy Wire :=
  withConfig 1 ⟨fun _ _ => .ok (), []⟩ ⟨8, [], false⟩ {} ⟨fun n => n * (200 * second), 0⟩

/-- The relay hosts the channel and hears of the message. -/
def openMessage : List (Input RsStrategy) :=
  [.subscribe "c" (rsRelayFactory {} fun _ => 7),
    .event (.sessionOpen 0 "c" "m" (OneShard.preambleBytes OneShard.preamble) [])]

/-- Two idle events, and the message is opened again. -/
def reopenMessage : List (Input RsStrategy) :=
  [.event (.routingUpdate 0 "c" "m" []), .event (.routingUpdate 0 "c" "m" []),
    .event (.sessionOpen 0 "c" "m" (OneShard.preambleBytes OneShard.preamble) [])]

/-- A message sent again after its tombstone expired is delivered again. -/
theorem run_delivers_once_resent :
    (slowNode.run (openMessage ++ .event (.chunk 0 "c" "m" 0 [1]) :: (reopenMessage
      ++ [.event (.chunk 0 "c" "m" 0 [1])]))).delivered.queue
        = [⟨"c", "m", [1]⟩, ⟨"c", "m", [1]⟩]
    ∧ (slowNode.run (openMessage ++ [.event (.chunk 0 "c" "m" 0 [1])])).clock.last
        + slowNode.config.tombstoneTtl
      < (slowNode.run (openMessage ++ .event (.chunk 0 "c" "m" 0 [1]) :: reopenMessage)).clock.last
    := by
  have hfirst : ((slowNode.run openMessage).emission (.event (.chunk 0 "c" "m" 0 [1]))).map Prod.fst
      = some ⟨"c", "m", [1]⟩ := by decide +kernel
  have hsecond : ((slowNode.run (openMessage ++ .event (.chunk 0 "c" "m" 0 [1])
      :: reopenMessage)).emission (.event (.chunk 0 "c" "m" 0 [1]))).map Prod.fst
      = some ⟨"c", "m", [1]⟩ := by decide +kernel
  obtain ⟨⟨d, e₁⟩, hd, rfl⟩ := Option.map_eq_some_iff.mp hfirst
  obtain ⟨⟨d', e₂⟩, hd', rfl⟩ := Option.map_eq_some_iff.mp hsecond
  refine ⟨by decide +kernel, ?_⟩
  refine (run_delivers_once _ _ _ _ _ (fun a b h => ?_) openMessage reopenMessage _ _ _ _ e₁ e₂
    hd hd' rfl rfl).2
  exact Nat.mul_le_mul_right _ h

end OneShard

end Engine

end Ethp2p
