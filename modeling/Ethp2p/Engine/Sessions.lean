/-
# Ethp2p.Engine.Sessions — the life of one session, whatever the engine does around it.

Fix a key `(c, m)`.  Each action of the engine leaves its session alone, applies session operations
to it (`SessionOp`), creates it, or removes it.  `Act.session` says which action does which, with the
guards, so that a property of one session is proved per operation and never by splitting the engine's
actions again.
-/
import Ethp2p.Engine.Run
import Ethp2p.Strategy.Rs.Runs

namespace Ethp2p

open Std

/-! ## Session operations -/

section Ops

variable [Crates]

/-- One operation on a session; a decode only where `F` holds. -/
inductive SessionOp (F : Prop) : Session RsStrategy → Session RsStrategy → Prop
  | attach (s : Session RsStrategy) (peer : PeerId) : SessionOp F s (s.attachPeer peer)
  | detach (s : Session RsStrategy) (peer : PeerId) (completed : Bool) :
      SessionOp F s (s.detachPeer peer completed)
  | poll (s : Session RsStrategy) : SessionOp F s s.poll.2
  | sent (s : Session RsStrategy) (peer : PeerId) (handle : DispatchHandle) (ok : Bool) :
      SessionOp F s (s.chunkSent peer handle ok)
  | take (s : Session RsStrategy) (idx : Nat) (data : Bytes) :
      SessionOp F s (s.takeChunk idx data).2
  | finish (s : Session RsStrategy) (hF : F) : SessionOp F s s.decodeAndFinish.2

/-- A sequence of session operations. -/
abbrev SessionOps (F : Prop) : Session RsStrategy → Session RsStrategy → Prop :=
  Relation.ReflTransGen (SessionOp F)

/-- What every operation preserves, a sequence of operations preserves. -/
theorem SessionOps.induct {F : Prop} {P : Session RsStrategy → Prop} {s s' : Session RsStrategy}
    (h : SessionOps F s s') (hop : ∀ {s s'}, SessionOp F s s' → P s → P s') (hs : P s) : P s' := by
  induction h with
  | refl => exact hs
  | tail _ h ih => exact hop h ih

end Ops

namespace Session

variable {S ChunkId RoutingUpdate DecodeError : Type}
  [Strategy S ChunkId RoutingUpdate DecodeError]

/-- Only a `Consuming` session hands a chunk to its strategy. -/
theorem takeChunk_strategy (s : Session S) (idx : ChunkId) (data : Bytes) :
    (s.takeChunk idx data).2.strategy
      = if s.state = .consuming then (Strategy.takeChunk s.strategy idx data).2 else s.strategy := by
  unfold takeChunk
  cases hstate : s.state with
  | consuming =>
    simp only [if_true]
    rcases Strategy.takeChunk s.strategy idx data with ⟨err | outcome, strategy⟩
    · rfl
    · dsimp only
      split <;> rfl
  | decoding | reconstructed | origin | failed => simp

/-- A chunk changes the chunk store of the strategy at most. -/
theorem takeChunk_chunks [Crates] (s : Session RsStrategy) (idx : Nat) (data : Bytes) :
    ∃ chunks, (s.takeChunk idx data).2.strategy = { s.strategy with chunks } := by
  rw [s.takeChunk_strategy]
  split
  · exact s.strategy.takeChunk_eq idx data
  · exact ⟨s.strategy.chunks, rfl⟩

/-- Decoding reads the strategy and leaves it. -/
theorem decodeAndFinish_strategy (s : Session S) : s.decodeAndFinish.2.strategy = s.strategy := by
  unfold decodeAndFinish
  split
  · rfl
  · split <;> rfl

/-- A payload comes only out of a `Decoding` session, which is then `Reconstructed`. -/
theorem decodeAndFinish_ok {s : Session S} {payload : Bytes}
    (h : s.decodeAndFinish.1 = .ok payload) :
    s.state = .decoding ∧ Strategy.decode s.strategy = .ok payload
      ∧ s.decodeAndFinish.2.state = .reconstructed := by
  unfold decodeAndFinish at h ⊢
  split at h
  · cases h
  case isFalse hstate =>
    cases hdec : Strategy.decode s.strategy with
    | error err => simp [hdec] at h
    | ok out =>
      simp only [hdec, Except.ok.injEq] at h
      refine ⟨not_not.mp hstate, by rw [h], ?_⟩
      rw [if_neg hstate]

end Session

/-! ## Fresh strategies -/

/-- What a relay factory builds, it builds from the decoded preamble. -/
theorem rsRelayFactory_ok [Crates] {config : RsConfig} {seeds : Nat → UInt64} {n : Nat}
    {b : Bytes} {s : RsStrategy} (h : ((rsRelayFactory config seeds).build n b).1 = .ok s) :
    ∃ preamble, Crates.preambleDecode b = .ok preamble
      ∧ RsStrategy.newRelayWithSeed preamble config (seeds n) = .ok s := by
  simp only [rsRelayFactory] at h
  split at h
  · cases h
  case h_2 preamble hdecode =>
    split at h
    · cases h
    case h_2 s' hnew =>
      cases h
      exact ⟨preamble, hdecode, hnew⟩

/-- Channels are hosted with a relay factory of this repository, and what is published is a freshly
built origin strategy. -/
def Input.Valid [Crates] : Input RsStrategy → Prop
  | .subscribe _ factory => ∃ config seeds, factory = rsRelayFactory config seeds
  | .publish _ _ strategy _ =>
    ∃ payload config seed, RsStrategy.newOriginWithSeed payload config seed = .ok strategy
  | _ => True

/-! ## Channels -/

namespace Channel

variable {S ChunkId RoutingUpdate DecodeError : Type}
  [Strategy S ChunkId RoutingUpdate DecodeError]

/-- A peer that is new to a channel is attached to all its sessions. -/
theorem sessions_subscribePeer (ch : Channel S) (peer : PeerId) (m : MessageId) :
    (ch.subscribePeer peer).sessions[m]?
      = if peer ∈ ch.subscribers then ch.sessions[m]? else ch.sessions[m]?.map (·.attachPeer peer) := by
  unfold subscribePeer
  split
  · rfl
  · exact ExtTreeMap.getElem?_map

/-- A subscriber that leaves is detached from all of them. -/
theorem sessions_unsubscribePeer (ch : Channel S) (peer : PeerId) (m : MessageId) :
    (ch.unsubscribePeer peer).sessions[m]?
      = if peer ∈ ch.subscribers then ch.sessions[m]?.map (·.detachPeer peer false)
        else ch.sessions[m]? := by
  unfold unsubscribePeer
  split
  · exact ExtTreeMap.getElem?_map
  · rfl

theorem subscribePeer_factory (ch : Channel S) (peer : PeerId) :
    (ch.subscribePeer peer).factory = ch.factory := by
  unfold subscribePeer
  split <;> rfl

theorem unsubscribePeer_factory (ch : Channel S) (peer : PeerId) :
    (ch.unsubscribePeer peer).factory = ch.factory := by
  unfold unsubscribePeer
  split <;> rfl

/-- A relay session is created only under a free id, from what the factory builds. -/
theorem openSession_ok {ch ch' : Channel S} {m : MessageId} {preamble : Bytes}
    (h : ch.openSession m preamble = (.ok (), ch')) :
    m ∉ ch.sessions ∧ ∃ strategy factory, ch.factory.call preamble = (.ok strategy, factory)
      ∧ ch' = { ch with
          factory
          sessions := ch.sessions.insert m (ch.attachAll (Session.newRelay strategy)) } := by
  unfold openSession at h
  split at h
  · cases h
  case isFalse hm =>
    rcases hcall : ch.factory.call preamble with ⟨err | strategy, factory⟩
    · rw [hcall] at h
      cases h
    · rw [hcall] at h
      cases h
      exact ⟨hm, strategy, factory, rfl, rfl⟩

/-- A refused open changes the factory at most. -/
theorem openSession_error {ch ch' : Channel S} {m : MessageId} {preamble : Bytes}
    {err : ChannelError} (h : ch.openSession m preamble = (.error err, ch')) :
    ch' = ch ∨ ∃ factory, ch.factory.call preamble = (.error err, factory)
      ∧ ch' = { ch with factory } := by
  unfold openSession at h
  split at h
  · cases h
    exact .inl rfl
  · rcases hcall : ch.factory.call preamble with ⟨err' | strategy, factory⟩
    · rw [hcall] at h
      cases h
      exact .inr ⟨factory, rfl, rfl⟩
    · rw [hcall] at h
      cases h

/-- An origin session is created only under a free id. -/
theorem startOriginSession_ok {ch ch' : Channel S} {m : MessageId} {strategy : S}
    (h : ch.startOriginSession m strategy = (.ok (), ch')) :
    m ∉ ch.sessions ∧ ch' = { ch with
      sessions := ch.sessions.insert m (ch.attachAll (Session.newOrigin strategy)) } := by
  unfold startOriginSession at h
  split at h
  · cases h
  case isFalse hm =>
    cases h
    exact ⟨hm, rfl⟩

/-- A chunk touches its own session only, through `Session.takeChunk`. -/
theorem takeChunk_eq (ch : Channel S) (m : MessageId) (idx : ChunkId) (data : Bytes) :
    (ch.takeChunk m idx data).2
      = { ch with sessions := ch.sessions.modify m fun s => (s.takeChunk idx data).2 } := by
  unfold takeChunk
  cases hs : ch.sessions[m]? with
  | none =>
    -- without the channel there is nothing to change
    have hsame : (ch.sessions.modify m fun s => (s.takeChunk idx data).2) = ch.sessions := by
      refine ExtTreeMap.ext_getElem? fun k => ?_
      rw [BTreeMap.get_modify]
      split
      case isTrue hk => rw [← hk, hs]; rfl
      case isFalse => rfl
    rw [hsame]
  | some s =>
    -- writing the channel back with the session changed is changing the session in place
    have hset : ch.sessions.insert m (s.takeChunk idx data).2
        = ch.sessions.modify m fun s => (s.takeChunk idx data).2 := by
      refine ExtTreeMap.ext_getElem? fun k => ?_
      rw [BTreeMap.get_modify, BTreeMap.get_insert, hs]
      rfl
    rw [← hset]
    simp only
    rcases s.takeChunk idx data with ⟨err | outcome, s'⟩ <;> rfl

end Channel

theorem Session.attachEach_state [Crates] (peers : List PeerId) (s : Session RsStrategy) :
    (peers.foldl Session.attachPeer s).state = s.state := by
  induction peers generalizing s with
  | nil => rfl
  | cons p peers ih => exact ih _

/-- The subscribers are attached to a new session one after the other. -/
theorem Channel.attachAll_ops [Crates] {F : Prop} (ch : Channel RsStrategy) (s : Session RsStrategy) :
    SessionOps F s (ch.attachAll s) := by
  unfold attachAll
  induction ch.subscribers.toList generalizing s with
  | nil => exact .refl
  | cons p ps ih => exact (Relation.ReflTransGen.single (.attach s p)).trans (ih _)

/-! ## What an action does to a session -/

namespace Engine

section Views

variable {S N : Type}

/-- A session is read off its channel. -/
theorem session?_of_channels {e e' : Engine S N} {c : ChannelId} (m : MessageId)
    (h : e'.channels[c]? = e.channels[c]?) : e'.session? c m = e.session? c m := by
  rw [session?, session?, h]

/-- The sessions after a channel is replaced. -/
theorem session?_insert (e : Engine S N) (c c' : ChannelId) (m : MessageId) (ch : Channel S) :
    Option.bind (e.channels.insert c ch)[c']? (·.sessions[m]?)
      = if c = c' then ch.sessions[m]? else e.session? c' m := by
  rw [BTreeMap.get_insert]
  split <;> rfl

/-- A session that its channel does not have is none. -/
theorem session?_eq_none_of_not_mem {e : Engine S N} {c : ChannelId} {m : MessageId}
    {ch : Channel S} (hch : e.channels[c]? = some ch) (hm : m ∉ ch.sessions) :
    e.session? c m = none := by
  simpa [session?, hch] using hm

end Views

section Transition

variable [Crates] {N : Type} {i : Input RsStrategy} {D : Terms N} {c : ChannelId} {m : MessageId}
  {e e' : Engine RsStrategy N}

/-- Handing over a chunk is `Session.takeChunk` on its session. -/
theorem takeChunk_eq (e : Engine RsStrategy N) (c : ChannelId) (m : MessageId) (chunkId : Nat)
    (payload : Bytes) :
    (e.takeChunk c m chunkId payload).2
      = e.modifySession c m fun s => (s.takeChunk chunkId payload).2 := by
  unfold takeChunk modifySession
  have hset : ∀ ch, e.channels[c]? = some ch →
      e.channels.insert c { ch with
        sessions := ch.sessions.modify m fun s => (s.takeChunk chunkId payload).2 }
      = e.channels.modify c fun ch => { ch with
          sessions := ch.sessions.modify m fun s => (s.takeChunk chunkId payload).2 } := by
    intro ch hch
    refine ExtTreeMap.ext_getElem? fun k => ?_
    rw [BTreeMap.get_modify, BTreeMap.get_insert, hch]
    rfl
  cases hch : e.channels[c]? with
  | none =>
    -- without the channel there is nothing to change
    have hsame : (e.channels.modify c fun ch => { ch with
        sessions := ch.sessions.modify m fun s => (s.takeChunk chunkId payload).2 })
        = e.channels := by
      refine ExtTreeMap.ext_getElem? fun k => ?_
      rw [BTreeMap.get_modify]
      split
      case isTrue hk => rw [← hk, hch]; rfl
      case isFalse => rfl
    rw [hsame]
  | some ch =>
    have htake := ch.takeChunk_eq m chunkId payload
    rw [← hset ch hch, ← htake]
    simp only
    rcases ch.takeChunk m chunkId payload with ⟨err | outcome, ch'⟩ <;> rfl

/-- How the session of `(c, m)` changes in one action from `e` to `e'`. -/
inductive Transition (i : Input RsStrategy) (D : Terms N) (c : ChannelId) (m : MessageId)
    (e e' : Engine RsStrategy N) : Option (Session RsStrategy) → Option (Session RsStrategy) → Prop
  /-- It stays. -/
  | kept (o : Option (Session RsStrategy)) : Transition i D c m e e' o o
  /-- Operations are applied to it. -/
  | ops {s s' : Session RsStrategy} (h : SessionOps D.decodes s s') : Transition i D c m e e' (some s) (some s')
  /-- A `SessionOpen` for a key without tombstone creates it. -/
  | relay {peer preamble update ch strategy factory}
      (hi : i = .event (.sessionOpen peer c m preamble update)) (htomb : (c, m) ∉ e.tombstones)
      (hch : e.channels[c]? = some ch)
      (hbuild : ch.factory.call preamble = (.ok strategy, factory)) :
      Transition i D c m e e' none (some (ch.attachAll (Session.newRelay strategy)))
  /-- A publish creates it. -/
  | origin {strategy preamble ch} (hi : i = .publish c m strategy preamble)
      (hch : e.channels[c]? = some ch) :
      Transition i D c m e e' none (some (ch.attachAll (Session.newOrigin strategy)))
  /-- A sweep disposes it and leaves a tombstone. -/
  | removed {s : Session RsStrategy} {now} (hsweeps : D.sweeps) (hnow : e.JustRead now)
      (htomb : e'.tombstones[(c, m)]? = some now) : Transition i D c m e e' (some s) none

/-- Nothing happened to the session. -/
theorem Transition.of_eq (h : e'.session? c m = e.session? c m) :
    Transition i D c m e e' (e.session? c m) (e'.session? c m) := by
  rw [h]
  exact .kept _

/-- An operation applied to a session if it is there. -/
theorem Transition.of_map {f : Session RsStrategy → Session RsStrategy}
    (h : e'.session? c m = (e.session? c m).map f) (hf : ∀ s, SessionOps D.decodes s (f s)) :
    Transition i D c m e e' (e.session? c m) (e'.session? c m) := by
  rw [h]
  cases e.session? c m with
  | none => exact .kept none
  | some s => exact .ops (hf s)

/-- The session was operated on, or another was. -/
theorem Transition.of_modifySession (c' : ChannelId) (m' : MessageId)
    {f : Session RsStrategy → Session RsStrategy} (hf : ∀ s, SessionOps D.decodes s (f s))
    (h : e'.session? c m = (e.modifySession c' m' f).session? c m) :
    Transition i D c m e e' (e.session? c m) (e'.session? c m) := by
  rw [session?_modifySession] at h
  split at h
  case isTrue hk =>
    obtain ⟨rfl, rfl⟩ := hk
    exact .of_map h hf
  case isFalse => exact .of_eq h

/-- A channel update that applies operations to the session, or leaves it alone. -/
theorem Transition.of_channel {g : Channel RsStrategy → Channel RsStrategy}
    (hget : e'.channels[c]? = e.channels[c]?.map g)
    (hg : ∀ ch, (g ch).sessions[m]? = ch.sessions[m]?
      ∨ ∃ f, (∀ s, SessionOps D.decodes s (f s)) ∧ (g ch).sessions[m]? = ch.sessions[m]?.map f) :
    Transition i D c m e e' (e.session? c m) (e'.session? c m) := by
  cases hch : e.channels[c]? with
  | none => exact .of_eq (session?_of_channels m (by rw [hget, hch]; rfl))
  | some ch =>
    rw [hch] at hget
    rcases hg ch with hsame | ⟨f, hf, hmap⟩
    · exact .of_eq (by simp [session?, hget, hch, hsame])
    · exact .of_map (by simp [session?, hget, hch, hmap]) hf

/-- Enrolling a peer in a channel. -/
theorem subscribePeer_sessions (ch : Channel RsStrategy) (peer : PeerId) (m : MessageId) :
    (ch.subscribePeer peer).sessions[m]? = ch.sessions[m]?
      ∨ ∃ f, (∀ s, SessionOps D.decodes s (f s))
        ∧ (ch.subscribePeer peer).sessions[m]? = ch.sessions[m]?.map f := by
  rw [ch.sessions_subscribePeer]
  split
  · exact .inl rfl
  · exact .inr ⟨_, fun s => .single (.attach s peer), rfl⟩

/-- Removing a peer from a channel. -/
theorem unsubscribePeer_sessions (ch : Channel RsStrategy) (peer : PeerId) (m : MessageId) :
    (ch.unsubscribePeer peer).sessions[m]? = ch.sessions[m]?
      ∨ ∃ f, (∀ s, SessionOps D.decodes s (f s))
        ∧ (ch.unsubscribePeer peer).sessions[m]? = ch.sessions[m]?.map f := by
  rw [ch.sessions_unsubscribePeer]
  split
  · exact .inr ⟨_, fun s => .single (.detach s peer false), rfl⟩
  · exact .inl rfl

omit [Crates] in
/-- A session that was just built is found, and the others are as they were. -/
theorem session?_withRelay {c' : ChannelId} {m' : MessageId} (preamble : Bytes)
    {ch ch' : Channel RsStrategy} {s : Session RsStrategy} (hch : e.channels[c']? = some ch)
    (hsessions : ch'.sessions = ch.sessions.insert m' s) :
    (e.withRelay c' m' preamble ch').session? c m
      = if c' = c ∧ m' = m then some s else e.session? c m := by
  rw [session?, withRelay_channels, session?_insert, hsessions]
  by_cases hc : c' = c
  · subst hc
    by_cases hm : m' = m
    · subst hm
      simp
    · simp [BTreeMap.get_insert, hm, session?, hch]
  · simp [hc]

/-- A new session takes the place of none. -/
theorem Transition.of_created {c' : ChannelId} {m' : MessageId} {s : Session RsStrategy}
    (hget : e'.session? c m = if c' = c ∧ m' = m then some s else e.session? c m)
    (hnone : e.session? c' m' = none)
    (hnew : c' = c → m' = m → Transition i D c m e e' none (some s)) :
    Transition i D c m e e' (e.session? c m) (e'.session? c m) := by
  split at hget
  case isTrue hk =>
    rw [hget, ← hk.1, ← hk.2, hnone]
    exact hk.1 ▸ hk.2 ▸ hnew hk.1 hk.2
  case isFalse => exact .of_eq hget

/-- A decode changes its session, the clock, the session's metadata and the sink, where it puts at
most its payload. -/
theorem afterDecode_eq (e : Engine RsStrategy N) (c : ChannelId) (m : MessageId)
    (session : Session RsStrategy) :
    ∃ clock sessionMeta delivered, e.afterDecode c m session
        = { e.modifySession c m fun _ => session.decodeAndFinish.2 with
          clock
          sessionMeta
          delivered }
      ∧ ∀ d ∈ delivered.queue, d ∈ e.delivered.queue
        ∨ ∃ payload, session.decodeAndFinish.1 = .ok payload ∧ d = ⟨c, m, payload⟩ := by
  unfold afterDecode
  obtain ⟨clock, sessionMeta, hmark⟩ := markSessionTerminal_frame
    (e.modifySession c m fun _ => session.decodeAndFinish.2) c m
  rw [hmark]
  cases hdec : session.decodeAndFinish.1 with
  | error err => exact ⟨clock, sessionMeta, e.delivered, rfl, fun d hd => .inl hd⟩
  | ok payload =>
    refine ⟨clock, sessionMeta, (e.delivered.trySend ⟨c, m, payload⟩).2, rfl, fun d hd => ?_⟩
    unfold Sink.trySend at hd
    split_ifs at hd
    · exact .inl hd
    · rcases List.mem_append.mp hd with hold | hnew
      · exact .inl hold
      · exact .inr ⟨payload, rfl, List.mem_singleton.mp hnew⟩
    · exact .inl hd

/-- A decoding writes the session back, and changes no other. -/
theorem afterDecode_channels (e : Engine RsStrategy N) (c : ChannelId) (m : MessageId)
    (session : Session RsStrategy) :
    (e.afterDecode c m session).channels
      = (e.modifySession c m fun _ => session.decodeAndFinish.2).channels := by
  obtain ⟨clock, sessionMeta, delivered, hdecode, -⟩ := e.afterDecode_eq c m session
  rw [hdecode]

omit [Crates] in
/-- A disposed session is gone, and no other is. -/
theorem session?_disposeSession (e : Engine RsStrategy N) (c c' : ChannelId) (m m' : MessageId)
    (now : Instant) :
    (e.disposeSession c' m' now).session? c m
      = if c' = c ∧ m' = m then none else e.session? c m := by
  show Option.bind (e.channels.modify c' (·.removeSession m'))[c]? _ = _
  rw [BTreeMap.get_modify]
  by_cases hc : c' = c
  · subst hc
    cases hch : e.channels[c']? with
    | none => simp [session?, hch]
    | some ch =>
      by_cases hm : m' = m
      · subst hm
        simp [Channel.removeSession]
      · simp [Channel.removeSession, BTreeMap.get_erase, hm, session?, hch]
  · simp [hc, session?]

omit [Crates] in
/-- Disposing a session keeps the other sessions' pending sends. -/
theorem pendingSends_disposeSession (e : Engine RsStrategy N) {c c' : ChannelId}
    {m m' : MessageId} (now : Instant) (k : DispatchHandle) (hne : ¬ (c = c' ∧ m = m')) :
    (e.disposeSession c m now).pendingSends[(c', m', k)]? = e.pendingSends[(c', m', k)]? := by
  show (e.pendingSends.filter fun k _ => !(k.1 = c && k.2.1 = m))[(c', m', k)]? = _
  rw [ExtTreeMap.getElem?_filter']
  cases e.pendingSends[(c', m', k)]? with
  | none => rfl
  | some p =>
    rw [Option.filter_some, if_pos]
    by_contra hkey
    simp only [Bool.not_eq_true, Bool.not_eq_false', Bool.and_eq_true, decide_eq_true_eq] at hkey
    exact hne ⟨hkey.1.symm, hkey.2.symm⟩

variable [Net N]

/-- A step of a drain operates on its session. -/
theorem DrainStepIf.ops {P : Session RsStrategy → Prop} {F : Prop} {s : Session RsStrategy}
    (h : DrainStepIf P c m e e')
    (hs : e.session? c m = some s) : ∃ s', e'.session? c m = some s' ∧ SessionOps F s s' := by
  cases h with
  | openRefused | opened | routed | chunkAccepted => exact ⟨s, hs, .refl⟩
  | polled hsession =>
    obtain rfl := Option.some.inj (hs.symm.trans hsession)
    exact ⟨s.poll.2, by simp [session?_modifySession_self, hs], .single (.poll s)⟩
  | @chunkRefused d =>
    refine ⟨s.chunkSent d.peer d.handle false, ?_, .single (.sent s d.peer d.handle false)⟩
    rw [session?_modifySession_self]
    exact congrArg (Option.map _) hs

/-- So does a whole drain. -/
theorem DrainStepsIf.ops {P : Session RsStrategy → Prop} {F : Prop} {s : Session RsStrategy}
    (h : DrainStepsIf P c m e e')
    (hs : e.session? c m = some s) : ∃ s', e'.session? c m = some s' ∧ SessionOps F s s' := by
  induction h with
  | refl => exact ⟨s, hs, .refl⟩
  | tail _ hstep ih =>
    obtain ⟨s1, h1, hops1⟩ := ih
    obtain ⟨s2, h2, hops2⟩ := hstep.ops h1
    exact ⟨s2, h2, hops1.trans hops2⟩

/-- A drain creates no session. -/
theorem DrainStepIf.session_none {P : Session RsStrategy → Prop} (h : DrainStepIf P c m e e')
    (hs : e.session? c m = none) : e'.session? c m = none := by
  cases h with
  | openRefused | opened | routed | chunkAccepted => exact hs
  | polled hsession => simp [hs] at hsession
  | chunkRefused hd =>
    obtain ⟨s, hs', -⟩ := hd
    simp [hs] at hs'

/-- A drain of any session is a sequence of operations on it, and leaves the other ones alone. -/
theorem DrainStepsIf.transition {P : Session RsStrategy → Prop} {c' : ChannelId} {m' : MessageId}
    (h : DrainStepsIf P c' m' e e') :
    Transition i D c m e e' (e.session? c m) (e'.session? c m) := by
  by_cases hk : c' = c ∧ m' = m
  · obtain ⟨rfl, rfl⟩ := hk
    cases hs : e.session? c' m' with
    | none =>
      have hnone : e'.session? c' m' = none :=
        h.induct (fun hstep hn => hstep.session_none hn) hs
      rw [hnone]
      exact .kept none
    | some s =>
      obtain ⟨s', hs', hops⟩ := h.ops hs
      rw [hs']
      exact .ops hops
  · exact .of_eq (h.frame.session_ne c m hk)

/-- **What one action does to one session.** -/
theorem Act.session (h : Act i D e e') (c : ChannelId) (m : MessageId) :
    Transition i D c m e e' (e.session? c m) (e'.session? c m) := by
  cases h with
  | announced | registered | greeted | rejected | parked | unparked | swept | ticked | scheduled
  | received =>
    exact .kept _
  -- a new channel has no sessions
  | @hosted c' factory hi hnew =>
    refine .of_eq ?_
    show Option.bind (e.channels.insert c' (Channel.new c' factory))[c]? _ = _
    rw [session?_insert]
    split
    case isTrue hc =>
      subst hc
      have hnone : e.channels[c']? = none := ExtTreeMap.getElem?_eq_none hnew
      simp [session?, hnone, Channel.new]
    case isFalse => rfl
  | @enrolled c' peer =>
    have hget : (e.subscribePeer c' peer).channels[c]?
        = if c' = c then e.channels[c']?.map (·.subscribePeer peer) else e.channels[c]? :=
      BTreeMap.get_modify ..
    split at hget
    case isTrue hc =>
      subst hc
      exact .of_channel hget fun ch => subscribePeer_sessions ch peer m
    case isFalse => exact .of_eq (session?_of_channels m hget)
  | @unsubscribed c' peer =>
    have hget : (e.unsubscribePeer c' peer).channels[c]?
        = if c' = c then e.channels[c']?.map (·.unsubscribePeer peer) else e.channels[c]? :=
      BTreeMap.get_modify ..
    split at hget
    case isTrue hc =>
      subst hc
      exact .of_channel hget fun ch => unsubscribePeer_sessions ch peer m
    case isFalse => exact .of_eq (session?_of_channels m hget)
  | @disconnected peer =>
    exact .of_channel (g := (·.unsubscribePeer peer)) ExtTreeMap.getElem?_map fun ch =>
      unsubscribePeer_sessions ch peer m
  | @refusedOpen c' m' preamble ch ch' err hch hopen =>
    refine .of_eq ?_
    show Option.bind (e.channels.insert c' ch')[c]? _ = _
    rw [session?_insert]
    split
    case isTrue hc =>
      subst hc
      -- the factory may have been called, and the sessions are as they were
      rcases Channel.openSession_error hopen with rfl | ⟨factory, -, rfl⟩ <;> simp [session?, hch]
    case isFalse => rfl
  | @openedRelay peer c' m' preamble update ch ch' hi htomb hch hopen =>
    obtain ⟨hm, strategy, factory, hbuild, rfl⟩ := Channel.openSession_ok hopen
    refine .of_created (session?_withRelay _ hch rfl) (session?_eq_none_of_not_mem hch hm) ?_
    rintro rfl rfl
    exact .relay hi htomb hch hbuild
  | @startedOrigin c' m' strategy preamble ch ch' hi hch hstart =>
    obtain ⟨hm, rfl⟩ := Channel.startOriginSession_ok hstart
    refine .of_created (session?_withRelay _ hch rfl) (session?_eq_none_of_not_mem hch hm) ?_
    rintro rfl rfl
    exact .origin hi hch
  | @ensured c' m' peer hto => exact (ensureSessionOpen_steps e c' m' peer (.inl hto)).transition
  | @drained c' m' => exact (drainSession_steps e c' m').transition
  | @took c' m' chunkId payload =>
    rw [takeChunk_eq]
    exact .of_modifySession c' m' (fun s => .single (.take s chunkId payload)) rfl
  | @decoded c' m' session hdecodes hs =>
    have hget := session?_of_channels m (congrArg (·[c]?) (afterDecode_channels e c' m' session))
    rw [session?_modifySession] at hget
    split at hget
    case isTrue hk =>
      obtain ⟨rfl, rfl⟩ := hk
      rw [hget, hs]
      exact .ops (.single (.finish session hdecodes))
    case isFalse => exact .of_eq hget
  | @resolved peer c' m' token ok =>
    exact .of_modifySession c' m' (fun s => .single (.sent s peer token ok)) rfl
  | @detached c' m' peer completed =>
    exact .of_modifySession c' m' (fun s => .single (.detach s peer completed)) rfl
  | @disposed c' m' now hsweeps hnow =>
    have hget := session?_disposeSession e c c' m m' now
    split at hget
    case isTrue hk =>
      obtain ⟨rfl, rfl⟩ := hk
      rw [hget]
      cases e.session? c' m' with
      | none => exact .kept none
      | some s =>
        -- the session leaves its tombstone
        refine .removed hsweeps hnow ?_
        show (e.tombstones.insert (c', m') now)[(c', m')]? = _
        rw [BTreeMap.get_insert, if_pos rfl]
    case isFalse => exact .of_eq hget

/-! ## Factories -/

/-- The construction a channel's factory performs, its counter aside. -/
def build? (e : Engine RsStrategy N) (c : ChannelId) :
    Option (Nat → Bytes → Except ChannelError RsStrategy × Nat) :=
  e.channels[c]?.map (·.factory.build)

omit [Crates] [Net N] in
/-- The builder of a channel is its factory's. -/
theorem build?_eq (c : ChannelId)
    (h : e'.channels[c]?.map Channel.factory = e.channels[c]?.map Channel.factory) :
    e'.build? c = e.build? c := by
  have hmap := congrArg (Option.map StrategyFactory.build) h
  simp only [Option.map_map] at hmap
  exact hmap

omit [Crates] [Net N] in
theorem build?_insert {c' : ChannelId} {ch ch' : Channel RsStrategy}
    (hch : e.channels[c']? = some ch) (hbuild : ch'.factory.build = ch.factory.build)
    (h : e'.channels = e.channels.insert c' ch') (c : ChannelId) : e'.build? c = e.build? c := by
  rw [build?, build?, h, BTreeMap.get_insert]
  split
  case isTrue hc => rw [← hc, hch, Option.map_some, Option.map_some, hbuild]
  case isFalse => rfl

omit [Crates] [Net N] in
theorem build?_modify {c' : ChannelId} {g : Channel RsStrategy → Channel RsStrategy}
    (h : e'.channels = e.channels.modify c' g) (hg : ∀ ch, (g ch).factory = ch.factory)
    (c : ChannelId) : e'.build? c = e.build? c := by
  rw [build?, build?, h, BTreeMap.get_modify]
  split
  case isTrue hc =>
    rw [← hc, Option.map_map]
    congr 1
    funext ch
    simp [hg]
  case isFalse => rfl

/-- A channel's factory is the one it was hosted with. -/
theorem Act.build (h : Act i D e e') (c : ChannelId) :
    e'.build? c = e.build? c ∨ ∃ factory, i = .subscribe c factory ∧ e'.build? c = some factory.build := by
  cases h with
  | announced | registered | greeted | rejected | parked | unparked | swept | ticked | scheduled
  | received =>
    exact .inl rfl
  | @hosted c' factory hi hnew =>
    by_cases hc : c' = c
    · subst hc
      refine .inr ⟨factory, hi, ?_⟩
      simp [build?, Channel.new]
    · exact .inl (by simp [build?, BTreeMap.get_insert, hc])
  | @enrolled c' peer =>
    exact .inl (build?_modify rfl (fun ch => ch.subscribePeer_factory peer) c)
  | @unsubscribed c' peer =>
    exact .inl (build?_modify rfl (fun ch => ch.unsubscribePeer_factory peer) c)
  | @disconnected peer =>
    refine .inl ?_
    show Option.map _ (e.channels.map fun _ ch => ch.unsubscribePeer peer)[c]? = _
    rw [ExtTreeMap.getElem?_map, Option.map_map, build?]
    -- a channel that loses a subscriber keeps its factory
    congr 1
    funext ch
    simp [ch.unsubscribePeer_factory]
  | @refusedOpen c' m' preamble ch ch' err hch hopen =>
    refine .inl (build?_insert hch ?_ rfl c)
    -- a factory that was called has the same builder
    rcases Channel.openSession_error hopen with rfl | ⟨factory, hcall, rfl⟩
    · rfl
    · exact (congrArg (fun r => r.2.build) hcall).symm
  | @openedRelay peer c' m' preamble update ch ch' hi htomb hch hopen =>
    obtain ⟨-, strategy, factory, hcall, rfl⟩ := Channel.openSession_ok hopen
    refine .inl (build?_insert hch ?_ (withRelay_channels ..) c)
    exact (congrArg (fun r => r.2.build) hcall).symm
  | @startedOrigin c' m' strategy preamble ch ch' hi hch hstart =>
    obtain ⟨-, rfl⟩ := Channel.startOriginSession_ok hstart
    refine .inl (build?_insert hch ?_ (withRelay_channels ..) c)
    rfl
  | @ensured c' m' peer hto =>
    exact .inl (build?_eq c ((ensureSessionOpen_steps e c' m' peer (.inl hto)).frame.factory_eq c))
  | @drained c' m' => exact .inl (build?_eq c ((drainSession_steps e c' m').frame.factory_eq c))
  | @took c' m' chunkId payload =>
    rw [takeChunk_eq]
    exact .inl (build?_eq c ((DrainFrame.modifySession e _).factory_eq c))
  | @decoded c' m' session hdecodes hs =>
    refine .inl (build?_eq c ?_)
    rw [afterDecode_channels]
    exact (DrainFrame.modifySession e _).factory_eq c
  | resolved | detached => exact .inl (build?_eq c ((DrainFrame.modifySession _ _).factory_eq c))
  | @disposed c' m' now =>
    exact .inl (build?_modify (g := (·.removeSession m')) rfl (fun _ => rfl) c)

/-- Every hosted channel builds its relays with a factory of this repository. -/
def RelayFactories (e : Engine RsStrategy N) : Prop :=
  ∀ c build, e.build? c = some build → ∃ config seeds, build = (rsRelayFactory config seeds).build

/-- Channels are hosted with a relay factory of this repository. -/
def HostsRelays (i : Input RsStrategy) : Prop :=
  ∀ c factory, i = .subscribe c factory → ∃ config seeds, factory = rsRelayFactory config seeds

omit [Net N] in
theorem hostsRelays_of_valid (hi : i.Valid) : HostsRelays i := by
  rintro c factory rfl
  exact hi

omit [Net N] in
/-- A hosted channel's factory builds relay strategies. -/
theorem RelayFactories.newRelay (he : e.RelayFactories) {ch : Channel RsStrategy}
    (hch : e.channels[c]? = some ch) {preamble : Bytes} {strategy : RsStrategy}
    {factory : StrategyFactory RsStrategy}
    (hcall : ch.factory.call preamble = (.ok strategy, factory)) :
    ∃ decoded config seed, RsStrategy.newRelayWithSeed decoded config seed = .ok strategy := by
  obtain ⟨config, seeds, hbuild⟩ := he c ch.factory.build (by simp [build?, hch])
  have hresult : (ch.factory.build ch.factory.counter preamble).1 = .ok strategy :=
    congrArg Prod.fst hcall
  rw [hbuild] at hresult
  obtain ⟨decoded, -, hnew⟩ := rsRelayFactory_ok hresult
  exact ⟨decoded, config, _, hnew⟩

/-- Every action leaves every factory a relay factory, if the hosted ones are. -/
theorem Act.relayFactories (h : Act i D e e') (hi : HostsRelays i) (he : e.RelayFactories) :
    e'.RelayFactories := by
  intro c build hbuild
  rcases h.build c with hsame | ⟨factory, hinput, hnew⟩
  · exact he c build (hsame ▸ hbuild)
  · obtain ⟨config, seeds, rfl⟩ := hi c factory hinput
    exact ⟨config, seeds, Option.some.inj (hbuild.symm.trans hnew)⟩

theorem RelayFactories.step_hosts (he : e.RelayFactories) (hi : HostsRelays i) :
    (e.step i).2.RelayFactories :=
  (step_acts i e).induct (fun hact he => hact.relayFactories hi he) he

/-- And so does every step. -/
theorem RelayFactories.step (he : e.RelayFactories) (hi : i.Valid) :
    (e.step i).2.RelayFactories :=
  he.step_hosts (hostsRelays_of_valid hi)

omit [Net N] in
/-- A new engine has no factories. -/
theorem relayFactories_withConfig (localPeer : PeerId) (net : N) (delivered : Sink)
    (config : EngineConfig) (clock : Clock) :
    (withConfig localPeer net delivered config clock).RelayFactories := by
  simp [RelayFactories, withConfig, build?]

end Transition

end Engine

end Ethp2p
