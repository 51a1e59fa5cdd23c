/-
# Ethp2p.Subscriptions — who a channel's subscribers are, whatever the order of arrival.

A remote peer makes STATEMENTS about a channel: a handshake that lists it or a `Subscribe` says "in",
an `Unsubscribe` or the loss of the connection says "out".  The engine applies a statement to a
channel it hosts and drops it otherwise, so a hosted channel has heard exactly the statements
processed since it was first hosted (`heardSince`), and its subscribers are the peers whose last one
of these is "in" (`run_subscribers`).

What was said before the channel was hosted is NOT remembered (`run_subscribers_forgets`).
-/
import Ethp2p.Engine.Sessions
import Ethp2p.Strategy.Rs.OneShard

namespace Ethp2p

open Std

namespace Input

/-- What the input has peer `p` say about channel `c`: in, out, or nothing. -/
def statement (p : PeerId) (c : ChannelId) : Input RsStrategy → Option Bool
  | .event (.handshake peer version channels _) =>
    if peer = p ∧ version = protocolVersion ∧ c ∈ channels then some true else none
  | .event (.subscribe peer channel) => if peer = p ∧ channel = c then some true else none
  | .event (.unsubscribe peer channel) => if peer = p ∧ channel = c then some false else none
  | .event (.peerDisconnected peer) => if peer = p then some false else none
  | _ => none

/-- The input hosts channel `c`. -/
def hosts (c : ChannelId) : Input RsStrategy → Bool
  | .subscribe channel _ => channel = c
  | _ => false

/-- The last thing peer `p` says about channel `c` in these inputs. -/
def lastStatement (p : PeerId) (c : ChannelId) (inputs : List (Input RsStrategy)) : Option Bool :=
  (inputs.filterMap (statement p c)).getLast?

/-- The inputs from the first one on that hosts channel `c`. -/
def heardSince (c : ChannelId) (inputs : List (Input RsStrategy)) : List (Input RsStrategy) :=
  inputs.dropWhile (!hosts c ·)

variable {p : PeerId} {c : ChannelId} {i : Input RsStrategy} {inputs : List (Input RsStrategy)}

/-- The last statement after one more input: its own, or the last before. -/
theorem lastStatement_concat :
    lastStatement p c (inputs ++ [i]) = (statement p c i).or (lastStatement p c inputs) := by
  unfold lastStatement
  rw [List.filterMap_append, List.getLast?_append, List.filterMap_cons]
  cases statement p c i <;> rfl

/-- A channel that is hosted hears every input. -/
theorem heardSince_concat_of_hosted (h : inputs.any (hosts c)) :
    heardSince c (inputs ++ [i]) = heardSince c inputs ++ [i] := by
  unfold heardSince
  rw [List.dropWhile_append, if_neg]
  obtain ⟨j, hj, hhosts⟩ := List.any_eq_true.mp h
  intro hempty
  have hall := List.dropWhile_eq_nil_iff.mp (List.isEmpty_iff.mp hempty) j hj
  simp [hhosts] at hall

/-- A channel hears nothing before it is hosted. -/
theorem heardSince_concat_of_not_hosted (h : ¬ inputs.any (hosts c)) :
    heardSince c (inputs ++ [i]) = if hosts c i then [i] else [] := by
  unfold heardSince
  have hempty : inputs.dropWhile (!hosts c ·) = [] := by
    refine List.dropWhile_eq_nil_iff.mpr fun j hj => ?_
    simp only [List.any_eq_true, not_exists, not_and] at h
    simpa using h j hj
  rw [List.dropWhile_append, hempty, List.isEmpty_nil, if_pos rfl, List.dropWhile_cons]
  cases hosts c i <;> simp

/-- Hosting a channel is no peer's statement. -/
theorem statement_of_hosts (h : hosts c i) : statement p c i = none := by
  cases i with
  | subscribe => rfl
  | _ => simp [hosts] at h

/-- A peer that announces a channel states that it is in. -/
theorem statement_of_announces {peer : PeerId} (h : Engine.Announces i peer c) :
    statement peer c i = some true := by
  unfold Engine.Announces at h
  unfold statement
  split at h
  · obtain ⟨rfl, hversion, hc⟩ := h
    simp [hversion, hc]
  · obtain ⟨rfl, rfl⟩ := h
    simp
  · exact h.elim

end Input

/-! ## Channels -/

namespace Channel

variable {S ChunkId RoutingUpdate DecodeError : Type}
  [Strategy S ChunkId RoutingUpdate DecodeError]

theorem mem_subscribers_subscribePeer (ch : Channel S) (peer p : PeerId) :
    p ∈ (ch.subscribePeer peer).subscribers ↔ peer = p ∨ p ∈ ch.subscribers := by
  unfold subscribePeer
  split
  case isTrue hmem =>
    refine ⟨.inr, ?_⟩
    rintro (rfl | hp)
    · exact hmem
    · exact hp
  case isFalse => exact BTreeSet.mem_insert_iff ..

theorem mem_subscribers_unsubscribePeer (ch : Channel S) (peer p : PeerId) :
    p ∈ (ch.unsubscribePeer peer).subscribers ↔ peer ≠ p ∧ p ∈ ch.subscribers := by
  unfold unsubscribePeer
  split
  case isTrue => exact BTreeSet.mem_erase_iff ..
  case isFalse hmem =>
    refine ⟨fun hp => ⟨?_, hp⟩, And.right⟩
    rintro rfl
    exact hmem hp

end Channel

namespace Engine

section Subscribed

variable {N : Type} {i : Input RsStrategy} {e e' : Engine RsStrategy N} {c : ChannelId}
  {p : PeerId}

/-- Whether peer `p` is a subscriber of channel `c`; `none` when the channel is not hosted. -/
def subscribed (e : Engine RsStrategy N) (c : ChannelId) (p : PeerId) : Option Bool :=
  e.channels[c]?.map (p ∈ ·.subscribers)

theorem subscribed_of_subscribers
    (h : e'.channels[c]?.map Channel.subscribers = e.channels[c]?.map Channel.subscribers) :
    e'.subscribed c p = e.subscribed c p := by
  have hmap := congrArg (Option.map fun s => decide (p ∈ s)) h
  simp only [Option.map_map] at hmap
  exact hmap

theorem subscribed_insert {c' : ChannelId} {ch ch' : Channel RsStrategy}
    (hch : e.channels[c']? = some ch) (h : e'.channels = e.channels.insert c' ch')
    (hsubs : ch'.subscribers = ch.subscribers) : e'.subscribed c p = e.subscribed c p := by
  refine subscribed_of_subscribers ?_
  rw [h, BTreeMap.get_insert]
  split
  case isTrue hc => rw [← hc, hch, Option.map_some, Option.map_some, hsubs]
  case isFalse => rfl

/-- A peer is a subscriber if the channel is hosted and says so. -/
theorem mem_subscribersOf_iff : p ∈ e.subscribersOf c ↔ e.subscribed c p = some true := by
  unfold subscribersOf subscribed
  cases e.channels[c]? <;> simp

/-- A channel update seen from one peer. -/
theorem subscribed_map {g : Channel RsStrategy → Channel RsStrategy} {f : Bool → Bool}
    (h : e'.channels[c]? = e.channels[c]?.map g)
    (hg : ∀ ch, decide (p ∈ (g ch).subscribers) = f (p ∈ ch.subscribers)) :
    e'.subscribed c p = (e.subscribed c p).map f := by
  unfold subscribed
  rw [h, Option.map_map, Option.map_map]
  congr 1
  funext ch
  exact hg ch

variable [Crates]

/-- A peer is enrolled in one channel, if that is hosted. -/
theorem subscribed_subscribePeer (e : Engine RsStrategy N) (c' : ChannelId) (peer : PeerId) :
    (e.subscribePeer c' peer).subscribed c p
      = if c' = c ∧ peer = p then (e.subscribed c p).map fun _ => true else e.subscribed c p := by
  have hget : (e.subscribePeer c' peer).channels[c]?
      = if c' = c then e.channels[c']?.map (·.subscribePeer peer) else e.channels[c]? :=
    BTreeMap.get_modify ..
  by_cases hc : c' = c
  · subst hc
    rw [if_pos rfl] at hget
    by_cases hp : peer = p
    · rw [if_pos ⟨rfl, hp⟩]
      exact subscribed_map hget fun ch => by simp [ch.mem_subscribers_subscribePeer, hp]
    · rw [if_neg (fun h => hp h.2), subscribed_map (p := p) (f := id) hget fun ch => by
        simp [ch.mem_subscribers_subscribePeer, hp]]
      exact congrFun Option.map_id _
  · rw [if_neg hc] at hget
    rw [if_neg (fun h => hc h.1), subscribed, hget, subscribed]

theorem subscribed_of_unsubscribePeer {peer : PeerId}
    (h : e'.channels[c]? = e.channels[c]?.map (·.unsubscribePeer peer)) :
    e'.subscribed c p
      = if peer = p then (e.subscribed c p).map fun _ => false else e.subscribed c p := by
  by_cases hp : peer = p
  · rw [if_pos hp]
    exact subscribed_map h fun ch => by simp [ch.mem_subscribers_unsubscribePeer, hp]
  · rw [if_neg hp, subscribed_map (p := p) (f := id) h fun ch => by
      simp [ch.mem_subscribers_unsubscribePeer, hp]]
    exact congrFun Option.map_id _

/-- A peer is taken out of one channel. -/
theorem subscribed_unsubscribePeer (e : Engine RsStrategy N) (c' : ChannelId) (peer : PeerId) :
    (e.unsubscribePeer c' peer).subscribed c p
      = if peer = p ∧ c' = c then (e.subscribed c p).map fun _ => false
        else e.subscribed c p := by
  have hget : (e.unsubscribePeer c' peer).channels[c]?
      = if c' = c then e.channels[c']?.map (·.unsubscribePeer peer) else e.channels[c]? :=
    BTreeMap.get_modify ..
  by_cases hc : c' = c
  · subst hc
    rw [if_pos rfl] at hget
    rw [subscribed_of_unsubscribePeer hget]
    simp
  · rw [if_neg hc] at hget
    rw [if_neg (fun h => hc h.2), subscribed, hget, subscribed]

/-- A peer that is gone is taken out of all. -/
theorem subscribed_handlePeerDisconnected (e : Engine RsStrategy N) (peer : PeerId) :
    (e.handlePeerDisconnected peer).subscribed c p
      = if peer = p then (e.subscribed c p).map fun _ => false else e.subscribed c p :=
  subscribed_of_unsubscribePeer ExtTreeMap.getElem?_map

/-! ## Steps -/

variable [Net N] {D : Terms N}

/-- **What one action does to a subscription**: nothing, unless it hosts the channel or carries out
the peer's statement. -/
theorem Act.subscribed (h : Act i D e e') (c : ChannelId) (p : PeerId) :
    e'.subscribed c p = e.subscribed c p
      ∨ (i.hosts c ∧ e.subscribed c p = none ∧ e'.subscribed c p = some false)
      ∨ ∃ b, i.statement p c = some b
        ∧ e'.subscribed c p = (e.subscribed c p).map fun _ => b := by
  -- hosting a channel and the four statements of a peer write it; a drain or a session does not
  cases h with
  | announced | registered | greeted | rejected | parked | unparked | swept | ticked | scheduled
  | received =>
    exact .inl rfl
  | @hosted c' factory hi hnew =>
    by_cases hc : c' = c
    · subst hc
      refine .inr (.inl ⟨by simp [hi, Input.hosts], ?_, ?_⟩)
      · simp [Engine.subscribed, ExtTreeMap.getElem?_eq_none hnew]
      · simp [Engine.subscribed, Channel.new]
    · exact .inl (by simp [Engine.subscribed, BTreeMap.get_insert, hc])
  | @enrolled c' peer hi =>
    rw [subscribed_subscribePeer]
    split
    case isTrue hk =>
      obtain ⟨rfl, rfl⟩ := hk
      exact .inr (.inr ⟨true, Input.statement_of_announces hi, rfl⟩)
    case isFalse => exact .inl rfl
  | @unsubscribed c' peer hi =>
    rw [subscribed_unsubscribePeer]
    split
    case isTrue hk => exact .inr (.inr ⟨false, by simp [hi, Input.statement, hk], rfl⟩)
    case isFalse => exact .inl rfl
  | @disconnected peer hi =>
    rw [subscribed_handlePeerDisconnected]
    split
    case isTrue hk => exact .inr (.inr ⟨false, by simp [hi, Input.statement, hk], rfl⟩)
    case isFalse => exact .inl rfl
  | @refusedOpen c' m' preamble ch ch' err hch hopen =>
    refine .inl (subscribed_insert hch rfl ?_)
    rcases Channel.openSession_error hopen with rfl | ⟨factory, -, rfl⟩ <;> rfl
  | @openedRelay peer c' m' preamble update ch ch' hi htomb hch hopen =>
    obtain ⟨-, strategy, factory, -, rfl⟩ := Channel.openSession_ok hopen
    exact .inl (subscribed_insert hch (e.withRelay_channels ..) rfl)
  | @startedOrigin c' m' strategy preamble ch ch' hi hch hstart =>
    obtain ⟨-, rfl⟩ := Channel.startOriginSession_ok hstart
    exact .inl (subscribed_insert hch (e.withRelay_channels ..) rfl)
  | @ensured c' m' peer hto =>
    exact .inl (subscribed_of_subscribers
      ((ensureSessionOpen_steps e c' m' peer (.inl hto)).frame.subscribers_eq c))
  | @drained c' m' =>
    exact .inl (subscribed_of_subscribers ((drainSession_steps e c' m').frame.subscribers_eq c))
  | @took c' m' chunkId payload =>
    rw [takeChunk_eq]
    exact .inl (subscribed_of_subscribers ((DrainFrame.modifySession e _).subscribers_eq c))
  | @decoded c' m' session hdecodes hs =>
    refine .inl (subscribed_of_subscribers ?_)
    rw [afterDecode_channels]
    exact (DrainFrame.modifySession e _).subscribers_eq c
  | resolved | detached =>
    exact .inl (subscribed_of_subscribers ((DrainFrame.modifySession _ _).subscribers_eq c))
  | @disposed c' m' now =>
    refine .inl (subscribed_of_subscribers ?_)
    show Option.map _ (e.channels.modify c' (·.removeSession m'))[c]? = _
    rw [BTreeMap.get_modify]
    split
    case isTrue hc => rw [hc, Option.map_map]; rfl
    case isFalse => rfl

/-- A statement that was carried out stays carried out for the rest of its step. -/
theorem Acts.stated {b : Bool} {o : Option Bool} (h : Acts i D e e')
    (hi : i.statement p c = some b) (he : e.subscribed c p = o.map fun _ => b) :
    e'.subscribed c p = o.map fun _ => b := by
  refine h.induct (P := fun e => e.subscribed c p = o.map fun _ => b) (fun hact he => ?_) he
  rcases hact.subscribed c p with hsame | ⟨hhosts, -, -⟩ | ⟨b', hb', hset⟩
  · rw [hsame, he]
  · rw [Input.statement_of_hosts hhosts] at hi
    cases hi
  · obtain rfl := Option.some.inj (hb'.symm.trans hi)
    rw [hset, he, Option.map_map]
    rfl

/-- An input that neither states anything nor hosts the channel leaves the subscription alone. -/
theorem Acts.subscribed_eq (h : Acts i D e e') (hi : i.statement p c = none)
    (hhosts : ¬ i.hosts c) : e'.subscribed c p = e.subscribed c p := by
  refine h.induct (P := fun e' => e'.subscribed c p = e.subscribed c p) (fun hact he => ?_) rfl
  rcases hact.subscribed c p with hsame | ⟨hyes, -, -⟩ | ⟨b, hb, -⟩
  · rw [hsame, he]
  · exact absurd hyes hhosts
  · rw [hi] at hb
    cases hb

/-- A step that carries out a statement changes the subscription in no other way. -/
theorem Acts.map_subscribed {b : Bool} (h : Acts i D e e') (hi : i.statement p c = some b) :
    ((e'.subscribed c p).map fun _ => b) = (e.subscribed c p).map fun _ => b := by
  refine h.induct
    (P := fun e' => ((e'.subscribed c p).map fun _ => b) = (e.subscribed c p).map fun _ => b)
    (fun hact he => ?_) rfl
  rcases hact.subscribed c p with hsame | ⟨hhosts, -, -⟩ | ⟨b', hb', hset⟩
  · rw [hsame, he]
  · rw [Input.statement_of_hosts hhosts] at hi
    cases hi
  · rw [hset, Option.map_map]
    exact he

/-- Enrolling a peer in a list of channels reaches each of them. -/
theorem enrolEach_subscribed (peer : PeerId) (cs : List ChannelId) (e : Engine RsStrategy N)
    (hi : i.statement peer c = some true) (hcs : ∀ c' ∈ cs, Announces i peer c') (hc : c ∈ cs) :
    (enrolEach peer cs e).subscribed c peer = (e.subscribed c peer).map fun _ => true := by
  induction cs generalizing e with
  | nil => cases hc
  | cons c' cs ih =>
    have hcs' : ∀ c' ∈ cs, Announces i peer c' := fun c' h => hcs c' (List.mem_cons_of_mem _ h)
    have henrol : Acts i Terms.any e (e.subscribePeer c' peer) :=
      .single (.enrolled (hcs c' List.mem_cons_self))
    have hdrain := drainChannel_acts (i := i) (D := Terms.any) c'
      (e.subscribePeer c' peer) fun _ _ => trivial
    have hrest := enrolEach_acts (i := i) (D := Terms.any) peer cs
      ((e.subscribePeer c' peer).drainChannel c').2 hcs' fun _ _ => trivial
    by_cases hc' : c' = c
    · refine Acts.stated (hdrain.trans hrest) hi ?_
      rw [subscribed_subscribePeer, if_pos ⟨hc', rfl⟩]
    · have hmem : c ∈ cs := (List.mem_cons.mp hc).resolve_left fun h => hc' h.symm
      rw [← Acts.map_subscribed (henrol.trans hdrain) hi]
      exact ih _ hcs' hmem

/-- An event that states something is carried out. -/
theorem handleEvent_stated {ev : NetEvent} {b : Bool} (e : Engine RsStrategy N)
    (hi : Input.statement p c (.event ev) = some b) :
    (e.handleEvent ev).subscribed c p = (e.subscribed c p).map fun _ => b := by
  -- the events that are no statement are excluded by `hi`
  cases ev with
  | handshake peer version channels peerId =>
    have hstated := hi
    simp only [Input.statement, ite_eq_iff, Option.some.injEq, reduceCtorEq, and_false,
      or_false] at hstated
    obtain ⟨⟨rfl, hversion, hc⟩, rfl⟩ := hstated
    simp only [handleEvent, if_pos hversion]
    exact enrolEach_subscribed peer channels { e with connected := e.connected.insert peer } hi
      (fun c' hc' => ⟨rfl, hversion, hc'⟩) hc
  | subscribe peer c' =>
    have hstated := hi
    simp only [Input.statement, ite_eq_iff, Option.some.injEq, reduceCtorEq, and_false,
      or_false] at hstated
    obtain ⟨⟨rfl, rfl⟩, rfl⟩ := hstated
    have hdrain := drainChannel_acts (i := .event (.subscribe peer c')) (D := Terms.any) c'
      (e.subscribePeer c' peer) fun _ _ => trivial
    refine hdrain.stated hi ?_
    rw [subscribed_subscribePeer, if_pos ⟨rfl, rfl⟩]
  | unsubscribe peer c' =>
    simp only [Input.statement, ite_eq_iff, Option.some.injEq, reduceCtorEq, and_false,
      or_false] at hi
    obtain ⟨hk, rfl⟩ := hi
    exact (subscribed_unsubscribePeer e c' peer).trans (if_pos hk)
  | peerDisconnected peer =>
    simp only [Input.statement, ite_eq_iff, Option.some.injEq, reduceCtorEq, and_false,
      or_false] at hi
    obtain ⟨hp, rfl⟩ := hi
    exact (subscribed_handlePeerDisconnected e peer).trans (if_pos hp)
  | sessionOpen | routingUpdate | chunk | peerConnected | chunkSendResult | peerReconstructed
  | sessionClosed => cases hi

omit [Crates] in
/-- Hosting a channel gives it no subscriber, and takes none from one already hosted. -/
theorem subscribe_subscribed (e : Engine RsStrategy N) (c : ChannelId)
    (factory : StrategyFactory RsStrategy) :
    (e.subscribe c factory).2.subscribed c p = some ((e.subscribed c p).getD false) := by
  have hsend : ∀ (msgs : List NetSend) (e : Engine RsStrategy N),
      (sendEach msgs e).2.channels = e.channels := by
    intro msgs
    induction msgs with
    | nil => exact fun e => rfl
    | cons msg msgs ih =>
      intro e
      unfold sendEach
      simp only [send_eq]
      rcases Net.send e.net msg with ⟨err | _, net⟩
      · rfl
      · exact ih _
  unfold subscribe Engine.subscribed
  dsimp only
  rw [hsend]
  split
  case isTrue hc =>
    obtain ⟨ch, hch⟩ := (BTreeMap.mem_iff_get e.channels c).mp hc
    simp [hch]
  case isFalse hc =>
    simp [ExtTreeMap.getElem?_eq_none hc, Channel.new]

/-- What one step does to a subscription. -/
theorem step_subscribed (e : Engine RsStrategy N) (i : Input RsStrategy) (c : ChannelId)
    (p : PeerId) :
    (e.step i).2.subscribed c p
      = match i.statement p c with
        | some b => (e.subscribed c p).map fun _ => b
        | none => if i.hosts c then some ((e.subscribed c p).getD false) else e.subscribed c p := by
  cases hstate : i.statement p c with
  | some b =>
    cases i with
    | event ev =>
      exact (maybeRunCleanup_acts (D := Terms.any) trivial _).stated hstate
        (handleEvent_stated e hstate)
    | subscribe | connect | publish | recv => cases hstate
  | none =>
    dsimp only
    split
    case isTrue hhosts =>
      cases i with
      | subscribe c' factory =>
        obtain rfl : c' = c := by simpa [Input.hosts] using hhosts
        exact subscribe_subscribed e c' factory
      | connect | publish | event | recv => cases hhosts
    case isFalse hhosts => exact (step_acts i e).subscribed_eq hstate hhosts

/-! ## Runs -/

/-- A channel is hosted once some input hosted it, and its subscribers are the peers whose last
statement since then is "in". -/
theorem run_subscribed (localPeer : PeerId) (net : N) (delivered : Sink) (config : EngineConfig)
    (clock : Clock) (inputs : List (Input RsStrategy)) (c : ChannelId) (p : PeerId) :
    ((withConfig localPeer net delivered config clock).run inputs).subscribed c p
      = if inputs.any (Input.hosts c)
        then some (Input.lastStatement p c (Input.heardSince c inputs) == some true) else none := by
  induction inputs using List.reverseRecOn with
  | nil => simp [run, withConfig, subscribed]
  | append_singleton inputs i ih =>
    rw [run_concat, step_subscribed, ih]
    by_cases hhosted : inputs.any (Input.hosts c)
    · have hstill : (inputs ++ [i]).any (Input.hosts c) := by
        rw [List.any_append, hhosted, Bool.true_or]
      rw [Input.heardSince_concat_of_hosted hhosted, Input.lastStatement_concat, if_pos hhosted,
        if_pos hstill]
      cases i.statement p c with
      | some b => simp
      | none => simp
    · rw [Input.heardSince_concat_of_not_hosted hhosted, if_neg hhosted]
      by_cases hhosts : i.hosts c
      · simp [Input.statement_of_hosts hhosts, hhosts, List.any_append, Input.lastStatement]
      · simp only [List.any_append, hhosted, hhosts]
        cases i.statement p c <;> simp [hhosts]

/-- Peer `p` is a subscriber of channel `c`, if it is hosted, exactly when its last statement in
`inputs` says so. -/
def SubscribedAsOf (e : Engine RsStrategy N) (inputs : List (Input RsStrategy)) (c : ChannelId)
    (p : PeerId) : Prop :=
  ∀ ch, e.channels[c]? = some ch →
    (p ∈ ch.subscribers ↔ Input.lastStatement p c inputs = some true)

/-- **A hosted channel's subscribers** are the peers whose last statement processed since the channel
was first hosted is "in". -/
theorem run_subscribers (localPeer : PeerId) (net : N) (delivered : Sink) (config : EngineConfig)
    (clock : Clock) (inputs : List (Input RsStrategy)) (c : ChannelId) (p : PeerId) :
    SubscribedAsOf ((withConfig localPeer net delivered config clock).run inputs)
      (Input.heardSince c inputs) c p := by
  intro ch hch
  have hrun := run_subscribed localPeer net delivered config clock inputs c p
  rw [subscribed, hch] at hrun
  split at hrun
  · have hmem := Option.some.inj hrun
    rw [← beq_iff_eq, ← hmem, decide_eq_true_eq]
  · cases hrun

end Subscribed

section OneShard

attribute [local instance] oneShard

/-- A subscription announced before the channel is hosted is forgotten. -/
theorem run_subscribers_forgets :
    let inputs : List (Input RsStrategy) :=
      [.event (.subscribe 1 "c"), .subscribe "c" (rsRelayFactory {} fun _ => 7)]
    ¬ SubscribedAsOf ((nodeOver fun _ _ => .ok ()).run inputs) inputs "c" 1 := by
  intro inputs h
  have hhosted : ((nodeOver fun _ _ => .ok ()).run inputs).channels["c"]?.any
      (1 ∉ ·.subscribers) := by decide +kernel
  obtain ⟨ch, hch, hout⟩ := (Option.any_eq_true _ _).mp hhosted
  have hin : Input.lastStatement 1 "c" inputs = some true := by decide +kernel
  rw [decide_eq_true_eq] at hout
  exact hout ((h ch hch).mpr hin)

end OneShard

end Engine

end Ethp2p
