/-
# Ethp2p.Drains — drains end.

The loop of `drain_session` has no counter: it goes on as long as a poll brings work and no send fails.
It ends because a round that goes on has put every pair it dispatched in flight, and because a routing
update is not due twice (`Strategy.Rs.Polling`).  Before a drain there may be one update and one dispatch
for every shard and attached peer, which makes two polls more than pairs at most: one may bring routing
alone, and the last one brings nothing (`drainLoop_ends`).

The same measure bounds what one drain submits: an update goes to each subscriber once, and a shard to a
peer once, because what is dispatched again would have to be open again (`drainLoop_submitsWithin`).

`run_drains_end` says this of every drain of every run.
-/
import Ethp2p.Dispatches
import Ethp2p.Publishing
import Ethp2p.Strategy.Rs.Polling
import Ethp2p.Strategy.Rs.Store

namespace Ethp2p

open Std

/-! ## Strategies in sessions -/

section Driven

variable [Crates] {F : Prop} {s s' : Session RsStrategy}

/-- What a session does to its strategy is a run of strategy operations. -/
theorem SessionOp.runOps (h : SessionOp F s s') : ∃ ops, s'.strategy = s.strategy.runOps ops := by
  cases h with
  | attach peer => exact ⟨[.attach peer], rfl⟩
  | detach peer completed => exact ⟨[.detach peer completed], rfl⟩
  | poll => exact ⟨[.pollRouting false, .pollChunks], rfl⟩
  | sent peer handle ok => exact ⟨[.sent peer handle ok], rfl⟩
  | take idx data =>
    rw [s.takeChunk_strategy]
    split
    · exact ⟨[.take idx data], rfl⟩
    · exact ⟨[], rfl⟩
  | finish => exact ⟨[], s.decodeAndFinish_strategy⟩

/-- A strategy in a state that its operations can put it in. -/
def RsStrategy.Driven (s : RsStrategy) : Prop :=
  ∃ (s₀ : RsStrategy) (ops : List StrategyOp), s₀.Built ∧ s = s₀.runOps ops

/-- A strategy that was just built has not been driven yet. -/
theorem RsStrategy.Built.driven {s : RsStrategy} (h : s.Built) : s.Driven := ⟨s, [], h, rfl⟩

/-- Whatever the engine does to a session, it drives its strategy. -/
theorem SessionOps.driven (h : SessionOps F s s') (hs : s.strategy.Driven) : s'.strategy.Driven := by
  refine h.induct (P := fun s => s.strategy.Driven) (fun hop hs => ?_) hs
  obtain ⟨ops', hops'⟩ := hop.runOps
  obtain ⟨s₀, ops, hbuilt, hops⟩ := hs
  exact ⟨s₀, ops ++ ops', hbuilt, by rw [hops', hops, RsStrategy.runOps_append]⟩

/-- The planner's heap is sound and has an entry for each shard of the preamble. -/
structure RsStrategy.Pollable (s : RsStrategy) : Prop where
  heap : s.planner.HeapSound
  numShards_eq : s.planner.numShards = s.totalShards

/-- However it is driven, a strategy can be polled to its end. -/
theorem RsStrategy.Driven.pollable {s : RsStrategy} (h : s.Driven) (hrs : RsCorrect) : s.Pollable := by
  obtain ⟨s₀, ops, hbuilt, rfl⟩ := h
  obtain ⟨config, preamble, chunks, n, seed, mode, hfresh⟩ := hbuilt.fresh
  have hheap : s₀.planner.HeapSound := hfresh ▸ EmitPlanner.new_heapSound n seed mode
  exact ⟨RsStrategy.runOps_heapSound hheap ops, ((hbuilt.intact hrs).stores (s₀.runOps_stores ops)).planned⟩

namespace RsStrategy.Pollable

variable {s : RsStrategy}

omit [Crates] in
theorem pollRouting (h : s.Pollable) : (s.pollRouting false).2.Pollable := by
  rcases s.pollRouting_cases false with hr | hr <;> rw [hr]
  · exact h
  · exact ⟨h.heap, h.numShards_eq⟩

omit [Crates] in
theorem pollChunks (h : s.Pollable) : s.pollChunks.2.Pollable where
  heap := pollPeers_heapSound _ h.heap
  numShards_eq := by
    rw [s.pollChunks_spec.sameStore.totalShards_eq, ← h.numShards_eq]
    exact pollPeers_numShards _ s

end RsStrategy.Pollable

end Driven

/-- Channels are hosted with a relay factory of this repository, and what is published is a strategy in
any state its operations can put it in. -/
def Input.Drivable [Crates] : Input RsStrategy → Prop
  | .subscribe _ factory => ∃ config seeds, factory = rsRelayFactory config seeds
  | .publish _ _ strategy _ => strategy.Driven
  | _ => True

/-- The peer a routing update goes to. -/
def NetSend.routed? : NetSend → Option PeerId
  | .routingUpdate peer .. => some peer
  | _ => none

namespace Engine

/-! ## Strategies of an engine -/

section Calls

variable [Crates] {N : Type} [Net N] {i : Input RsStrategy} {e : Engine RsStrategy N}

/-- Every session's strategy is in a state its operations put it in, and every relay will be. -/
structure Sound (e : Engine RsStrategy N) : Prop where
  factories : e.RelayFactories
  driven : ∀ c m, ∀ s ∈ e.session? c m, s.strategy.Driven

/-- **What every session operation preserves, and every new session has, every session has** after an
action too. -/
theorem Act.eachSession {D : Terms N} {e' : Engine RsStrategy N} {Q : Session RsStrategy → Prop}
    (h : Act i D e e') (he : e.RelayFactories) (hop : ∀ {s s'}, SessionOp D.decodes s s' → Q s → Q s')
    (hrelay : ∀ decoded config seed strategy,
      RsStrategy.newRelayWithSeed decoded config seed = .ok strategy → Q (Session.newRelay strategy))
    (horigin : ∀ c m strategy preamble, i = .publish c m strategy preamble → Q (Session.newOrigin strategy))
    (hold : ∀ c m, ∀ s ∈ e.session? c m, Q s) (c : ChannelId) (m : MessageId) :
    ∀ s ∈ e'.session? c m, Q s := by
  intro s' hs'
  have hs := hold c m
  have htransition := h.session c m
  rw [Option.mem_def.mp hs'] at htransition
  generalize e.session? c m = before at htransition hs
  cases htransition with
  | kept => exact hs s' rfl
  | ops hops => exact hops.induct hop (hs _ rfl)
  | relay _ _ hch hbuild =>
    obtain ⟨decoded, config, seed, hnew⟩ := he.newRelay hch hbuild
    exact (Channel.attachAll_ops _ _).induct hop (hrelay _ _ _ _ hnew)
  | origin hi => exact (Channel.attachAll_ops _ _).induct hop (horigin _ _ _ _ hi)

/-- Every action keeps the sessions driven. -/
theorem Act.sound {D : Terms N} {e' : Engine RsStrategy N} (h : Act i D e e') (hi : i.Drivable)
    (he : e.Sound) : e'.Sound := by
  refine ⟨h.relayFactories (fun c factory hc => ?_) he.factories, ?_⟩
  · subst hc
    exact hi
  · refine h.eachSession (Q := fun s => s.strategy.Driven) he.factories
      (fun hop hs => SessionOps.driven (.single hop) hs) (fun _ _ _ _ hnew => ?_)
      (fun c m strategy preamble hpublish => ?_) he.driven
    · exact RsStrategy.Built.driven (.inr ⟨_, _, _, hnew⟩)
    · subst hpublish
      exact hi

theorem Sound.acts {e' : Engine RsStrategy N} (he : e.Sound) (hi : i.Drivable)
    (h : Acts i Terms.any e e') : e'.Sound :=
  h.induct (fun hact he => hact.sound hi he) he

/-- The sessions are driven in every reachable state. -/
theorem sound_run (localPeer : PeerId) (net : N) (delivered : Sink) (config : EngineConfig) (clock : Clock)
    {inputs : List (Input RsStrategy)} (hinputs : ∀ i ∈ inputs, i.Drivable) :
    ((withConfig localPeer net delivered config clock).run inputs).Sound := by
  refine run_induct (fun e i hi he => he.acts (hinputs i hi) (step_acts i e)) ?_
  refine ⟨relayFactories_withConfig localPeer net delivered config clock, fun c m s hs => ?_⟩
  simp [session?, withConfig] at hs

end Calls

/-! ## Rounds that go on -/

section Rounds

variable [Crates] {N : Type} [Net N] {c : ChannelId} {m : MessageId} {e e' : Engine RsStrategy N}
  {s : Session RsStrategy}

/-- A batch that does not stall is accepted, so it refunds nothing. -/
theorem dispatchEach_same {ds : List (ChunkDispatch Nat)} {stalled : Bool}
    (h : dispatchEach c m ds stalled e = (.ok false, e')) : stalled = false ∧ e'.channels = e.channels := by
  induction ds generalizing e stalled with
  | nil =>
    cases h
    exact ⟨rfl, rfl⟩
  | cons d ds ih =>
    have hsame := (ensureSessionOpen_same e c m d.peer).1
    unfold dispatchEach at h
    rcases hr : e.ensureSessionOpen c m d.peer with ⟨err | _, e₁⟩ <;> rw [hr] at h hsame
    · cases h
    · simp only [send_eq] at h
      rcases hsend : Net.send e₁.net (.chunk d.peer c m d.chunkId d.payload d.handle) with
        ⟨err | _, net⟩ <;> rw [hsend] at h
      · cases (ih h).1
      · exact ⟨(ih h).1, (ih h).2.trans hsame⟩

/-- **A round that goes on**: its poll brought work, and did all there is to do to the session. -/
theorem drainRound_none (hs : e.session? c m = some s) (h : e.drainRound c m = (none, e')) :
    e'.session? c m = some s.poll.2 ∧ (s.poll.1.routing = none → s.poll.1.dispatches ≠ []) := by
  unfold drainRound at h
  simp only [hs] at h
  split at h
  · cases h
  case isFalse hwork =>
    have hsame := (routeWork_same c m s.poll.1.routing (e.modifySession c m fun _ => s.poll.2)).1
    rcases hr : routeWork c m s.poll.1.routing (e.modifySession c m fun _ => s.poll.2) with
      ⟨err | _, e₁⟩ <;> rw [hr] at h hsame
    · cases h
    · simp only at h
      rcases hd : dispatchEach c m s.poll.1.dispatches false e₁ with ⟨err | stalled, e₂⟩ <;> rw [hd] at h
      · cases h
      · cases stalled
        · cases h
          refine ⟨?_, fun hnone hnil => hwork (by rw [hnone, hnil]; rfl)⟩
          rw [session?_congr ((dispatchEach_same hd).2.trans hsame), session?_modifySession_self, hs]
          rfl
        · cases h

/-- A loop that returns is not changed by more fuel. -/
theorem drainLoop_mono {fuel fuel' : Nat} (h : (drainLoop c m fuel e).1 ≠ none) (hle : fuel ≤ fuel') :
    drainLoop c m fuel' e = drainLoop c m fuel e := by
  induction fuel generalizing e fuel' with
  | zero => exact absurd rfl h
  | succ fuel ih =>
    obtain ⟨fuel', rfl⟩ := Nat.exists_eq_add_of_le hle
    rw [Nat.add_right_comm]
    unfold drainLoop at h ⊢
    rcases hr : e.drainRound c m with ⟨_ | r, e₁⟩ <;> rw [hr] at h
    exact ih h (Nat.le_add_right _ _)

/-- A loop that returns has polled once for each turn at most. -/
theorem length_drainRounds_le {fuel : Nat} (h : (drainLoop c m fuel e).1 ≠ none) (fuel' : Nat) :
    (drainRounds c m fuel' e).length ≤ fuel := by
  induction fuel generalizing e fuel' with
  | zero => exact absurd rfl h
  | succ fuel ih =>
    cases fuel' with
    | zero => exact Nat.zero_le _
    | succ fuel' =>
      unfold drainLoop at h
      unfold drainRounds
      rcases hr : e.drainRound c m with ⟨_ | r, e₁⟩ <;> rw [hr] at h
      · exact Nat.succ_le_succ (ih h fuel')
      · exact Nat.succ_le_succ (Nat.zero_le _)

/-- **The loop returns** within one poll for each open pair, one for the routing update if it may be due,
and one that brings nothing. -/
theorem drainLoop_ends (h : s.strategy.Pollable) (hs : e.session? c m = some s) {fuel : Nat}
    (hfuel : s.strategy.openPairs.card + 1 < fuel
      ∨ s.strategy.Quiet ∧ s.strategy.openPairs.card < fuel) :
    (drainLoop c m fuel e).1 ≠ none := by
  induction fuel generalizing e s with
  | zero => omega
  | succ fuel ih =>
    unfold drainLoop
    rcases hr : e.drainRound c m with ⟨_ | r, e₁⟩
    · obtain ⟨hs₁, hwork⟩ := drainRound_none hs hr
      have hpoll := h.pollRouting
      have hquiet : s.poll.2.strategy.Quiet := s.strategy.quiet_pollRouting.pollChunks
      have hsame := s.strategy.openPairs_pollRouting false
      have hle : s.poll.2.strategy.openPairs.card ≤ s.strategy.openPairs.card :=
        hsame ▸ Finset.card_le_card (s.strategy.pollRouting false).2.openPairs_pollChunks
      refine ih hpoll.pollChunks hs₁ (.inr ⟨hquiet, ?_⟩)
      by_cases hnil : s.poll.1.dispatches = []
      · -- the round brought routing alone, so there was an update due
        have hdue : ¬ s.strategy.Quiet := fun hq => hwork (congrArg Prod.fst hq) hnil
        have hfuel := hfuel.resolve_right fun hq => hdue hq.1
        omega
      · have hlt : s.poll.2.strategy.openPairs.card < s.strategy.openPairs.card :=
          hsame ▸ Finset.card_lt_card (RsStrategy.openPairs_pollChunks_ssubset hpoll.heap hnil)
        omega
    · exact Option.some_ne_none r

omit [Net N] in
/-- The fuel of a drain bounds the dispatches that can be due. -/
theorem drainFuel_eq (hs : e.session? c m = some s) :
    e.drainFuel c m = s.strategy.totalShards * s.strategy.attachedPeers.toList.length + 2 := by
  unfold drainFuel
  rw [hs]
  rfl

/-- The loop of `drain_session` returns. -/
theorem drainLoop_returns (h : s.strategy.Pollable) (hs : e.session? c m = some s) :
    (drainLoop c m (e.drainFuel c m) e).1 ≠ none := by
  have hcard := s.strategy.card_openPairs_le
  rw [h.numShards_eq] at hcard
  exact drainLoop_ends h hs (.inl (by rw [drainFuel_eq hs]; omega))

end Rounds

/-! ## What a drain submits -/

/-- The peers that routing updates were submitted to since an earlier state. -/
def routedSince (e e' : Engine RsStrategy Wire) : List PeerId :=
  (e'.net.log.drop e.net.log.length).filterMap (·.msg.routed?)

/-- The peers and shards that chunks were submitted of since an earlier state. -/
def chunksSince (e e' : Engine RsStrategy Wire) : List (PeerId × Nat) :=
  (e'.net.log.drop e.net.log.length).filterMap fun sent => sent.msg.dispatch?.map ChunkDispatch.target

/-- Since `e`, routing updates were submitted to some of `peers` and chunks of some of `targets`, in
order. -/
structure SubmitsWithin (e e' : Engine RsStrategy Wire) (peers : List PeerId)
    (targets : List (PeerId × Nat)) : Prop where
  log : e.net.log <+: e'.net.log
  routed : (routedSince e e').Sublist peers
  chunks : (chunksSince e e').Sublist targets

namespace SubmitsWithin

variable {e e' e'' : Engine RsStrategy Wire} {peers peers' : List PeerId}
  {targets targets' : List (PeerId × Nat)}

/-- Nothing was submitted. -/
theorem of_log (h : e'.net.log = e.net.log) : SubmitsWithin e e' peers targets := by
  refine ⟨h ▸ List.prefix_rfl, ?_, ?_⟩
  · simp [routedSince, h]
  · simp [chunksSince, h]

/-- One message was submitted. -/
theorem of_send {msg : NetSend} {r : Except NetError Unit} (h : e'.net.log = e.net.log ++ [⟨msg, r⟩])
    (hpeers : msg.routed?.toList.Sublist peers)
    (htargets : (msg.dispatch?.map ChunkDispatch.target).toList.Sublist targets) :
    SubmitsWithin e e' peers targets := by
  have hsingle : ∀ {β} (f : Sent → Option β) (a : Sent), [a].filterMap f = (f a).toList := by
    intro β f a
    cases hf : f a <;> simp [hf]
  refine ⟨⟨_, h.symm⟩, ?_, ?_⟩
  · rw [routedSince, h, List.drop_left, hsingle]
    exact hpeers
  · rw [chunksSince, h, List.drop_left, hsingle]
    exact htargets

/-- Submissions in a row. -/
theorem trans (h : SubmitsWithin e e' peers targets) (h' : SubmitsWithin e' e'' peers' targets') :
    SubmitsWithin e e'' (peers ++ peers') (targets ++ targets') := by
  obtain ⟨sent, hsent⟩ := h.log
  obtain ⟨sent', hsent'⟩ := h'.log
  have hdrop : e'.net.log.drop e.net.log.length = sent := by rw [← hsent, List.drop_left]
  have hdrop' : e''.net.log.drop e'.net.log.length = sent' := by rw [← hsent', List.drop_left]
  have hdrop'' : e''.net.log.drop e.net.log.length = sent ++ sent' := by
    rw [← hsent', ← hsent, List.append_assoc, List.drop_left]
  have hrouted := h.routed.append h'.routed
  have hchunks := h.chunks.append h'.chunks
  refine ⟨h.log.trans h'.log, ?_, ?_⟩
  · rw [routedSince, hdrop'', List.filterMap_append]
    rwa [routedSince, routedSince, hdrop, hdrop'] at hrouted
  · rw [chunksSince, hdrop'', List.filterMap_append]
    rwa [chunksSince, chunksSince, hdrop, hdrop'] at hchunks

/-- A weaker bound. -/
theorem mono (h : SubmitsWithin e e' peers targets) (hpeers : peers.Sublist peers')
    (htargets : targets.Sublist targets') : SubmitsWithin e e' peers' targets' :=
  ⟨h.log, h.routed.trans hpeers, h.chunks.trans htargets⟩

end SubmitsWithin

section Log

variable {e : Engine RsStrategy Wire} {c : ChannelId} {m : MessageId}

/-- No subscriber is listed twice. -/
theorem nodup_subscribersOf (e : Engine RsStrategy Wire) (c : ChannelId) : (e.subscribersOf c).Nodup := by
  unfold subscribersOf
  cases e.channels[c]? with
  | none => exact List.nodup_nil
  | some ch => exact ch.subscribers.nodup_toList

/-- An open is neither a routing update nor a chunk. -/
theorem ensureSessionOpen_submitsWithin (e : Engine RsStrategy Wire) (c : ChannelId) (m : MessageId)
    (peer : PeerId) : SubmitsWithin e (e.ensureSessionOpen c m peer).2 [] [] := by
  unfold ensureSessionOpen
  split
  · exact .of_log rfl
  · cases e.sessionPreambles[(c, m)]? with
    | none => exact .of_log rfl
    | some preamble =>
      simp only [send_eq]
      rcases hsend : Net.send e.net (.sessionOpen peer c m preamble []) with ⟨err | _, net⟩ <;>
        exact .of_send (log_send hsend) (List.Sublist.refl _) (List.Sublist.refl _)

/-- A round routes to each of its peers at most once. -/
theorem routeEach_submitsWithin (c : ChannelId) (m : MessageId) (payload : Bytes) (peers : List PeerId)
    (e : Engine RsStrategy Wire) : SubmitsWithin e (routeEach c m payload peers e).2 peers [] := by
  induction peers generalizing e with
  | nil => exact .of_log rfl
  | cons peer peers ih =>
    have hopen := ensureSessionOpen_submitsWithin e c m peer
    unfold routeEach
    rcases hr : e.ensureSessionOpen c m peer with ⟨err | _, e₁⟩ <;> rw [hr] at hopen
    · exact hopen.mono (List.nil_sublist _) (List.Sublist.refl _)
    · simp only [send_eq]
      rcases hsend : Net.send e₁.net (.routingUpdate peer c m payload) with ⟨err | _, net⟩
      · have hroute : SubmitsWithin e₁ { e₁ with net } [peer] [] :=
          .of_send (log_send hsend) (List.Sublist.refl _) (List.Sublist.refl _)
        exact (hopen.trans hroute).mono (by simp) (List.Sublist.refl _)
      · have hroute : SubmitsWithin e₁ { e₁ with net } [peer] [] :=
          .of_send (log_send hsend) (List.Sublist.refl _) (List.Sublist.refl _)
        exact (hopen.trans hroute).trans (ih { e₁ with net })

theorem routeWork_submitsWithin (c : ChannelId) (m : MessageId) (routing : Option BitMap)
    (e : Engine RsStrategy Wire) :
    SubmitsWithin e (routeWork c m routing e).2 (if routing.isSome then e.subscribersOf c else []) [] := by
  cases routing with
  | none => exact .of_log rfl
  | some routing => exact routeEach_submitsWithin c m _ _ e

variable [Crates] {s : Session RsStrategy}

/-- A round submits each dispatch of its batch at most once. -/
theorem dispatchEach_submitsWithin (c : ChannelId) (m : MessageId) (ds : List (ChunkDispatch Nat))
    (stalled : Bool) (e : Engine RsStrategy Wire) :
    SubmitsWithin e (dispatchEach c m ds stalled e).2 [] (ds.map ChunkDispatch.target) := by
  induction ds generalizing e stalled with
  | nil => exact .of_log rfl
  | cons d ds ih =>
    have hopen := ensureSessionOpen_submitsWithin e c m d.peer
    unfold dispatchEach
    rcases hr : e.ensureSessionOpen c m d.peer with ⟨err | _, e₁⟩ <;> rw [hr] at hopen
    · exact hopen.mono (List.Sublist.refl _) (List.nil_sublist _)
    · simp only [send_eq]
      rcases hsend : Net.send e₁.net (.chunk d.peer c m d.chunkId d.payload d.handle) with
        ⟨err | _, net⟩
      · have hchunk : SubmitsWithin e₁ ({ e₁ with net }.modifySession c m (·.chunkSent d.peer d.handle false))
            [] [d.target] :=
          .of_send (log_send hsend) (List.Sublist.refl _) (List.Sublist.refl _)
        exact (hopen.trans hchunk).trans (ih true _)
      · have hchunk : SubmitsWithin e₁ { e₁ with
            net
            pendingSends := e₁.pendingSends.insert (c, m, d.handle) d.peer } [] [d.target] :=
          .of_send (log_send hsend) (List.Sublist.refl _) (List.Sublist.refl _)
        exact (hopen.trans hchunk).trans (ih stalled _)

/-- A round submits the work of its poll. -/
theorem drainRound_submitsWithin (hs : e.session? c m = some s) :
    SubmitsWithin e (e.drainRound c m).2 (if s.poll.1.routing.isSome then e.subscribersOf c else [])
      (s.poll.1.dispatches.map ChunkDispatch.target) := by
  have hpolled : SubmitsWithin e (e.modifySession c m fun _ => s.poll.2) [] [] := .of_log rfl
  have hroute := hpolled.trans
    (routeWork_submitsWithin c m s.poll.1.routing (e.modifySession c m fun _ => s.poll.2))
  rw [subscribersOf_modifySession] at hroute
  unfold drainRound
  simp only [hs]
  split
  · exact .of_log rfl
  · rcases hr : routeWork c m s.poll.1.routing (e.modifySession c m fun _ => s.poll.2) with
      ⟨err | _, e₁⟩ <;> rw [hr] at hroute
    · exact hroute.mono (List.Sublist.refl _) (List.nil_sublist _)
    · have hall := hroute.trans (dispatchEach_submitsWithin c m s.poll.1.dispatches false e₁)
      rw [List.append_nil] at hall
      simp only
      rcases hd : dispatchEach c m s.poll.1.dispatches false e₁ with ⟨err | stalled, e₂⟩ <;> rw [hd] at hall
      · exact hall
      · cases stalled <;> exact hall

/-- **What a loop submits**: updates to each subscriber once, unless none is due, and chunks of open pairs,
each once. -/
theorem drainLoop_submitsWithin (h : s.strategy.Pollable) (hs : e.session? c m = some s) (fuel : Nat) :
    ∃ peers targets, SubmitsWithin e (drainLoop c m fuel e).2 peers targets
      ∧ peers.Sublist (e.subscribersOf c) ∧ (s.strategy.Quiet → peers = [])
      ∧ targets.Nodup ∧ ∀ x ∈ targets, x ∈ s.strategy.openPairs := by
  induction fuel generalizing e s with
  | zero => exact ⟨[], [], .of_log rfl, List.nil_sublist _, fun _ => rfl, List.nodup_nil, by simp⟩
  | succ fuel ih =>
    have hround := drainRound_submitsWithin hs
    have hsame := s.strategy.openPairs_pollRouting false
    have hopen : ∀ x ∈ s.poll.1.dispatches.map ChunkDispatch.target, x ∈ s.strategy.openPairs := by
      intro x hx
      obtain ⟨d, hd, rfl⟩ := List.mem_map.mp hx
      exact hsame ▸ RsStrategy.target_mem_openPairs h.pollRouting.heap hd
    have hnodup : (s.poll.1.dispatches.map ChunkDispatch.target).Nodup :=
      (s.strategy.pollRouting false).2.pollChunks_targets_nodup
    have hnone : s.strategy.Quiet → s.poll.1.routing = none := fun hq => congrArg Prod.fst hq
    have hrouted :
        (if s.poll.1.routing.isSome then e.subscribersOf c else []).Sublist (e.subscribersOf c) := by
      split
      · exact List.Sublist.refl _
      · exact List.nil_sublist _
    unfold drainLoop
    rcases hr : e.drainRound c m with ⟨_ | r, e₁⟩ <;> rw [hr] at hround
    · obtain ⟨hs₁, -⟩ := drainRound_none hs hr
      -- the relay has said what it had to say, so that only this round routes
      have hquiet : s.poll.2.strategy.Quiet := s.strategy.quiet_pollRouting.pollChunks
      obtain ⟨peers, targets, hloop, -, hpeers, hnodup', hopen'⟩ := ih h.pollRouting.pollChunks hs₁
      rw [hpeers hquiet] at hloop
      refine ⟨_, _, hround.trans hloop, by simpa using hrouted, fun hq => by simp [hnone hq],
        hnodup.append hnodup' fun x hx hx' => ?_, fun x hx => ?_⟩
      · -- what was dispatched in this round is not open for the next ones
        obtain ⟨d, hd, rfl⟩ := List.mem_map.mp hx
        exact RsStrategy.target_not_mem_openPairs hd (hopen' d.target hx')
      · rcases List.mem_append.mp hx with hx | hx
        · exact hopen x hx
        · exact hsame ▸ (s.strategy.pollRouting false).2.openPairs_pollChunks (hopen' x hx)
    · exact ⟨_, _, hround, hrouted, fun hq => by simp [hnone hq], hnodup, hopen⟩

end Log

/-! ## Every drain of every run -/

section Runs

variable [Crates]

/-- The drain of `(c, m)` in `e` returns after at most one poll for each shard and attached peer and two
more; it submits a routing update to each subscriber once at most, to nobody else, and a shard to a peer
once at most. -/
structure DrainEnds (e : Engine RsStrategy Wire) (c : ChannelId) (m : MessageId) (s : Session RsStrategy) :
    Prop where
  polls : ∀ fuel, (drainRounds c m fuel e).length
    ≤ s.strategy.totalShards * s.strategy.attachedPeers.toList.length + 2
  returns : ∀ fuel, s.strategy.totalShards * s.strategy.attachedPeers.toList.length + 2 ≤ fuel →
    drainLoop c m fuel e = (some (e.drainSession c m).1, (e.drainSession c m).2)
  routed : (routedSince e (e.drainSession c m).2).Nodup
    ∧ ∀ p ∈ routedSince e (e.drainSession c m).2, p ∈ e.subscribersOf c
  chunks : (chunksSince e (e.drainSession c m).2).Nodup

/-- The drain of a session that can be polled to its end comes to its end. -/
theorem drainEnds_of_pollable {e : Engine RsStrategy Wire} {c : ChannelId} {m : MessageId}
    {s : Session RsStrategy} (h : s.strategy.Pollable) (hs : e.session? c m = some s) :
    DrainEnds e c m s := by
  have hends := drainLoop_returns h hs
  obtain ⟨peers, targets, hsubmits, hpeers, -, hnodup, -⟩ := drainLoop_submitsWithin h hs (e.drainFuel c m)
  have hrouted := hsubmits.routed.trans hpeers
  refine ⟨fun fuel => ?_, fun fuel hfuel => ?_, ⟨?_, fun p hp => hrouted.subset hp⟩,
    hnodup.sublist hsubmits.chunks⟩
  · rw [← drainFuel_eq hs]
    exact length_drainRounds_le hends fuel
  · rw [drainLoop_mono hends (drainFuel_eq hs ▸ hfuel)]
    unfold drainSession
    rcases hr : drainLoop c m (e.drainFuel c m) e with ⟨_ | r, e₁⟩
    · exact absurd (congrArg Prod.fst hr) hends
    · rfl
  · exact (nodup_subscribersOf e c).sublist hrouted

/-- **Drains end.**  In every run, whatever the transport answers: each drain that a step makes, and any
that would be made between steps, returns within its bound. -/
theorem run_drains_end (hrs : RsCorrect) (localPeer : PeerId) (net : Wire) (delivered : Sink)
    (config : EngineConfig) (clock : Clock) (inputs : List (Input RsStrategy))
    (hinputs : ∀ i ∈ inputs, i.Drivable) :
    let e := (withConfig localPeer net delivered config clock).run inputs
    (∀ i : Input RsStrategy, i.Drivable → ∀ call ∈ e.drainCalls i,
      ∀ s ∈ call.1.session? call.2.1 call.2.2, DrainEnds call.1 call.2.1 call.2.2 s)
    ∧ ∀ c m, ∀ s ∈ e.session? c m, DrainEnds e c m s := by
  intro e
  have he : e.Sound := sound_run localPeer net delivered config clock hinputs
  refine ⟨fun i hi call hcall s hs => ?_, fun c m s hs => ?_⟩
  · have hcalled := he.acts hi (drainCalls_acts i e call hcall)
    exact drainEnds_of_pollable ((hcalled.driven _ _ s hs).pollable hrs) hs
  · exact drainEnds_of_pollable ((he.driven c m s hs).pollable hrs) hs

end Runs

section OneShard

attribute [local instance] oneShard

/-- The drain of a publish to two peers polls three times: for the update and a shard each, for another
shard each, and in vain. -/
theorem run_drains_end_publishing :
    ∃ call ∈ ((nodeTicking 0).run (publishToTwo.take 3)).drainCalls (.publish "c" "m" OneShard.origin
        (OneShard.preambleBytes OneShard.preamble)),
      ∃ s ∈ call.1.session? call.2.1 call.2.2, DrainEnds call.1 call.2.1 call.2.2 s
        ∧ (drainRounds call.2.1 call.2.2 9 call.1).length = 3 := by
  have hinputs : ∀ i ∈ publishToTwo.take 3, i.Drivable := by
    simp only [publishToTwo, List.take_succ_cons, List.take_zero, List.forall_mem_cons, List.not_mem_nil,
      false_implies, implies_true, and_true]
    exact ⟨⟨{}, _, rfl⟩, trivial, trivial⟩
  have hpublish : (Input.publish "c" "m" OneShard.origin
      (OneShard.preambleBytes OneShard.preamble)).Drivable :=
    RsStrategy.Built.driven (.inl ⟨_, _, _, OneShard.newOrigin_eq⟩)
  have hends := (run_drains_end OneShard.rsCorrect 0 ⟨fun _ _ => .ok (), []⟩ ⟨8, [], false⟩ {}
    ⟨fun n => n * 0, 0⟩ (publishToTwo.take 3) hinputs).1 _ hpublish
  have hcalls : (((nodeTicking 0).run (publishToTwo.take 3)).drainCalls (.publish "c" "m" OneShard.origin
      (OneShard.preambleBytes OneShard.preamble))).any (fun call =>
        (call.1.session? call.2.1 call.2.2).isSome
          && (drainRounds call.2.1 call.2.2 9 call.1).length = 3) = true := by decide +kernel
  obtain ⟨call, hcall, hlive⟩ := List.any_eq_true.mp hcalls
  rw [Bool.and_eq_true] at hlive
  obtain ⟨s, hs⟩ := Option.isSome_iff_exists.mp hlive.1
  exact ⟨call, hcall, s, hs, hends call hcall s hs, of_decide_eq_true hlive.2⟩

end OneShard

end Engine

end Ethp2p
