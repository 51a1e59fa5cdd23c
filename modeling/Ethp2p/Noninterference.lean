/-
# Ethp2p.Noninterference — what one session shows of another.

The sessions of an engine share its tables, its subscriber sets and its sink.  `Scene` is an engine
with a single message `(c, m)`: the subscribers of `c`, the session, the chunks parked for it, and the
part of the sink that holds it.  `Scene.on` is what an event does to it, and events of other sessions do
nothing by definition.  `Shows.handleEvent` says that the engine refines its scene for every message,
whatever else it is doing: a drain, a decode or a parked chunk of another key touches no table at this
key.  `run_noninterference` reads the theorem about two runs off that.

One thing is shared that the scene cannot follow: the strategy factory of the channel is a closure, and
may count its calls.  The factories of this crate do, but only to seed the planner (`Steady`); a
factory that stops building shows every other session to this one (`run_interference`).
-/
import Ethp2p.Parking

namespace Ethp2p

open Std

/-! ## Factories -/

/-- The factory builds the same from a preamble at every call, as far as the store and the attached
peers go: it builds `build preamble`, or nothing. -/
def StrategyFactory.Builds (f : StrategyFactory RsStrategy) (build : Bytes → Option RsStrategy) : Prop :=
  ∀ n preamble, match (f.build n preamble).1 with
    | .ok s => ∃ s₀, build preamble = some s₀ ∧ s₀.SameStore s ∧ s.attachedPeers = s₀.attachedPeers
    | .error _ => build preamble = none

/-- What the factory builds does not depend on its calls, planners aside. -/
def StrategyFactory.Steady (f : StrategyFactory RsStrategy) : Prop := ∃ build, f.Builds build

/-- The factories of this crate count their calls to seed the planners. -/
theorem rsRelayFactory_steady [Crates] (config : RsConfig) (seeds : Nat → UInt64) :
    (rsRelayFactory config seeds).Steady := by
  refine ⟨fun preambleBytes => (Crates.preambleDecode preambleBytes).toOption.bind fun preamble =>
    (RsStrategy.newRelayWithSeed preamble config (seeds 0)).toOption, fun n bytes => ?_⟩
  simp only [rsRelayFactory]
  cases Crates.preambleDecode bytes with
  | error err => rfl
  | ok preamble =>
    simp only [Except.toOption, Option.bind_some, RsStrategy.newRelayWithSeed]
    cases validatePreamble preamble with
    | error err => rfl
    | ok _ => exact ⟨_, rfl, ⟨rfl, rfl, rfl⟩, rfl⟩

/-! ## Twin sessions -/

/-- The sessions are in the same state, hold the same and have the same peers attached. -/
structure Session.Twin (s s' : Session RsStrategy) : Prop extends s.Alike s' where
  attachedPeers_eq : s'.strategy.attachedPeers = s.strategy.attachedPeers

namespace Session.Twin

variable [Crates] {s s' : Session RsStrategy}

omit [Crates] in
theorem refl (s : Session RsStrategy) : s.Twin s := ⟨⟨rfl, .refl _⟩, rfl⟩

theorem attachPeer (h : s.Twin s') (p : PeerId) : (s.attachPeer p).Twin (s'.attachPeer p) :=
  ⟨⟨h.state_eq, h.store.config_eq, h.store.preamble_eq, h.store.chunks_eq⟩,
    congrArg (·.insert p) h.attachedPeers_eq⟩

/-- Twins that the same peers are attached to stay twins. -/
theorem attachEach (h : s.Twin s') (ps : List PeerId) :
    (ps.foldl Session.attachPeer s).Twin (ps.foldl Session.attachPeer s') := by
  induction ps generalizing s s' with
  | nil => exact h
  | cons p ps ih => exact ih (h.attachPeer p)

/-- So do twins that a peer is detached from. -/
theorem detachPeer (h : s.Twin s') (p : PeerId) (completed : Bool) :
    (s.detachPeer p completed).Twin (s'.detachPeer p completed) :=
  ⟨⟨h.state_eq, h.store.config_eq, h.store.preamble_eq, h.store.chunks_eq⟩,
    congrArg (·.erase p) h.attachedPeers_eq⟩

/-- A result that one of two twins gets leaves them twins. -/
theorem chunkSent (h : s.Twin s') (p : PeerId) (handle : DispatchHandle) (ok : Bool) :
    s.Twin (s'.chunkSent p handle ok) :=
  ⟨⟨h.state_eq, h.store.trans (s'.strategy.chunkSent_sameStore p handle ok)⟩,
    (s'.strategy.chunkSent_attachedPeers p handle ok).trans h.attachedPeers_eq⟩

/-- Twins that take the same chunk stay twins. -/
theorem takeChunk (h : s.Twin s') (idx : Nat) (data : Bytes) :
    (s.takeChunk idx data).2.Twin (s'.takeChunk idx data).2 := by
  obtain ⟨chunks, hchunks⟩ := s.takeChunk_chunks idx data
  obtain ⟨chunks', hchunks'⟩ := s'.takeChunk_chunks idx data
  refine ⟨(h.toAlike.takeChunk idx data).2, ?_⟩
  rw [hchunks, hchunks']
  exact h.attachedPeers_eq

/-- Twins that are decoded stay twins. -/
theorem decodeAndFinish (h : s.Twin s') : s.decodeAndFinish.2.Twin s'.decodeAndFinish.2 := by
  refine ⟨h.toAlike.decodeAndFinish.2, ?_⟩
  rw [s.decodeAndFinish_strategy, s'.decodeAndFinish_strategy]
  exact h.attachedPeers_eq

end Session.Twin

/-! ## Scenes -/

/-- The session an event is about, if it is about one. -/
def NetEvent.sessionKey? : NetEvent → Option SessionKey
  | .sessionOpen _ c m _ _ | .chunk _ c m _ _ | .routingUpdate _ c m _ | .chunkSendResult _ c m _ _
  | .peerReconstructed _ c m | .sessionClosed _ c m => some (c, m)
  | .handshake .. | .subscribe .. | .unsubscribe .. | .peerDisconnected _ | .peerConnected _ => none

/-- The event is not about another session than that of `k`. -/
def NetEvent.concerns (k : SessionKey) (ev : NetEvent) : Bool := ev.sessionKey?.all (· = k)

/-- The part of the sink that holds the message. -/
def Sink.only (k : SessionKey) (s : Sink) : Sink :=
  { s with queue := s.queue.filter fun d => (d.channelId, d.messageId) = k }

/-- What the engine shows of one message: the subscribers of its channel and what its factory builds, its
session, the chunks parked for it, whether its tombstone stands, and its part of the sink. -/
structure Scene where
  subscribers : Option (BTreeSet PeerId)
  build : Bytes → Option RsStrategy
  session : Option (Session RsStrategy)
  parked : List (Nat × Bytes)
  buried : Bool
  delivered : Sink

namespace Scene

variable [Crates]

/-- A peer is enrolled in the channel. -/
def enrol (p : PeerId) (sc : Scene) : Scene :=
  match sc.subscribers with
  | none => sc
  | some subs =>
    if p ∈ subs then sc
    else { sc with subscribers := some (subs.insert p), session := sc.session.map (·.attachPeer p) }

/-- A peer leaves the channel. -/
def leave (p : PeerId) (sc : Scene) : Scene :=
  match sc.subscribers with
  | none => sc
  | some subs =>
    if p ∈ subs then
      { sc with subscribers := some (subs.erase p), session := sc.session.map (·.detachPeer p false) }
    else sc

/-- A peer leaves the session. -/
def detach (p : PeerId) (completed : Bool) (sc : Scene) : Scene :=
  { sc with session := sc.session.map (·.detachPeer p completed) }

omit [Crates] in
/-- The live session and the sink, as an account. -/
def account (sc : Scene) (s : Session RsStrategy) : Account := ⟨s, false, sc.delivered⟩

omit [Crates] in
/-- The scene after the account moved on. -/
def settled (sc : Scene) (a : Account) : Scene :=
  { sc with session := some a.session, delivered := a.delivered }

/-- A chunk of the message comes in. -/
def chunk (c : ChannelId) (m : MessageId) (chunk : Nat × Bytes) (sc : Scene) : Scene :=
  if sc.buried then sc
  else match sc.session with
  | none =>
    let parked := if sc.parked.length ≥ maxParkedChunksPerMessage then sc.parked.tail else sc.parked
    { sc with parked := parked ++ [chunk] }
  | some s => sc.settled ((sc.account s).arrive c m chunk)

/-- The `SessionOpen` of the message comes in. -/
def open_ (c : ChannelId) (m : MessageId) (preamble : Bytes) (sc : Scene) : Scene :=
  if sc.buried then sc
  else match sc.subscribers, sc.session, sc.build preamble with
  | some subs, none, some strategy =>
    let s := subs.toList.foldl Session.attachPeer (Session.newRelay strategy)
    { sc with parked := [] }.settled ((sc.account s).replay c m sc.parked)
  | _, _, _ => sc

/-- An event comes in. -/
def on (c : ChannelId) (m : MessageId) (sc : Scene) : NetEvent → Scene
  | .handshake peer version channels _ =>
    if version = protocolVersion then
      channels.foldl (fun sc c' => if c' = c then sc.enrol peer else sc) sc
    else sc
  | .subscribe peer c' => if c' = c then sc.enrol peer else sc
  | .unsubscribe peer c' => if c' = c then sc.leave peer else sc
  | .peerDisconnected peer => sc.leave peer
  | .sessionOpen _ c' m' preamble _ => if c' = c ∧ m' = m then sc.open_ c m preamble else sc
  | .chunk _ c' m' chunkId payload => if c' = c ∧ m' = m then sc.chunk c m (chunkId, payload) else sc
  | .peerReconstructed peer c' m' => if c' = c ∧ m' = m then sc.detach peer true else sc
  | .sessionClosed peer c' m' => if c' = c ∧ m' = m then sc.detach peer false else sc
  | .routingUpdate .. | .peerConnected _ | .chunkSendResult .. => sc

/-- An event of another session changes nothing. -/
theorem on_foreign {c : ChannelId} {m : MessageId} {ev : NetEvent} (h : ev.concerns (c, m) = false)
    (sc : Scene) : sc.on c m ev = sc := by
  have hkey : ∀ {c' m'}, ev.sessionKey? = some (c', m') → ¬ (c' = c ∧ m' = m) := by
    rintro c' m' hev ⟨rfl, rfl⟩
    rw [NetEvent.concerns, hev] at h
    simp at h
  cases ev with
  | handshake | subscribe | unsubscribe | peerDisconnected | peerConnected => cases h
  | sessionOpen | chunk | peerReconstructed | sessionClosed => exact if_neg (hkey rfl)
  | routingUpdate | chunkSendResult => rfl

omit [Crates] in
/-- A scene with a live session stands as its own account says. -/
theorem settled_account {sc : Scene} {s : Session RsStrategy} (hs : sc.session = some s) :
    sc.settled (sc.account s) = sc := by
  unfold settled account
  rw [← hs]

end Scene

/-! ## The sink -/

namespace Sink

variable {k : SessionKey} {s : Sink} {d : DeliveredMessage}

/-- A message of the key goes to the part of the key. -/
theorem only_trySend (hroom : s.queue.length < s.capacity) (hd : (d.channelId, d.messageId) = k) :
    (s.trySend d).2.only k = ((s.only k).trySend d).2 := by
  have hpart : (s.only k).queue.length < (s.only k).capacity :=
    (List.length_filter_le ..).trans_lt hroom
  have hclosed : (s.only k).closed = s.closed := rfl
  unfold trySend
  rw [if_pos hroom, if_pos hpart, hclosed]
  split
  · rfl
  · simp [only, hd]

/-- A message of another key does not. -/
theorem only_trySend_ne (hd : (d.channelId, d.messageId) ≠ k) : (s.trySend d).2.only k = s.only k := by
  unfold trySend
  split
  · rfl
  split
  · simp [only, hd]
  · rfl

end Sink

/-! ## The engine refines its scenes -/

namespace Session.Twin

variable {s₀ s s' : Session RsStrategy}

/-- A drain leaves a twin a twin. -/
theorem drained (h : s₀.Twin s) (hstate : s'.state = s.state) (hstore : s.strategy.SameStore s'.strategy)
    (hpeers : s'.strategy.attachedPeers = s.strategy.attachedPeers) : s₀.Twin s' :=
  ⟨⟨hstate.trans h.state_eq, h.store.trans hstore⟩, hpeers.trans h.attachedPeers_eq⟩

end Session.Twin

namespace Engine

section Shows

variable [Crates] {N : Type} [Net N] {e e' : Engine RsStrategy N} {c : ChannelId} {m : MessageId}
  {sc : Scene}

/-- The engine shows this scene of the message. -/
structure Shows (e : Engine RsStrategy N) (c : ChannelId) (m : MessageId) (sc : Scene) : Prop where
  subscribers : e.channels[c]?.map Channel.subscribers = sc.subscribers
  factory : ∀ f ∈ e.channels[c]?.map Channel.factory, f.Builds sc.build
  session : Option.Rel Session.Twin sc.session (e.session? c m)
  parked : (e.parkedChunks[(c, m)]?.getD []).map (fun p => (p.chunkId, p.payload)) = sc.parked
  buried : e.isTombstoned c m = sc.buried
  delivered : e.delivered.only (c, m) = sc.delivered

omit [Crates] [Net N] in
/-- An engine shows something of every message, as long as the factory of the channel is steady. -/
theorem exists_shows (hsteady : ∀ f ∈ e.channels[c]?.map Channel.factory, f.Steady) :
    ∃ sc, e.Shows c m sc := by
  obtain ⟨build, hbuild⟩ : ∃ build, ∀ f ∈ e.channels[c]?.map Channel.factory, f.Builds build := by
    cases hch : e.channels[c]? with
    | none => exact ⟨fun _ => none, nofun⟩
    | some ch =>
      obtain ⟨build, hbuild⟩ := hsteady ch.factory (by rw [hch]; rfl)
      refine ⟨build, ?_⟩
      rintro _ ⟨rfl⟩
      exact hbuild
  have hself : Option.Rel Session.Twin (e.session? c m) (e.session? c m) := by
    cases e.session? c m with
    | none => exact .none
    | some s => exact .some (.refl s)
  exact ⟨⟨_, build, _, _, _, _⟩, rfl, hbuild, hself, rfl, rfl, rfl⟩

omit [Crates] [Net N] in
/-- The tables outside the channels are the same. -/
theorem Shows.channels (h : e.Shows c m sc) {chs : BTreeMap ChannelId (Channel RsStrategy)}
    (hchs : chs[c]? = e.channels[c]?) : { e with channels := chs }.Shows c m sc where
  subscribers := by rw [hchs]; exact h.subscribers
  factory := by rw [hchs]; exact h.factory
  session := by
    show Option.Rel _ _ (chs[c]?.bind _)
    rw [hchs]
    exact h.session
  parked := h.parked
  buried := h.buried
  delivered := h.delivered

omit [Crates] [Net N] in
/-- The channel is replaced. -/
theorem Shows.replaced (h : e.Shows c m sc) {chs : BTreeMap ChannelId (Channel RsStrategy)}
    {ch ch' : Channel RsStrategy} (hch : e.channels[c]? = some ch) (hch' : chs[c]? = some ch')
    (hfactory : ch'.factory.build = ch.factory.build) (session : Option (Session RsStrategy))
    (hsession : Option.Rel Session.Twin session ch'.sessions[m]?) :
    { e with channels := chs }.Shows c m
      { sc with subscribers := some ch'.subscribers, session := session } where
  subscribers := by rw [hch']; rfl
  factory := by
    rw [hch']
    rintro _ ⟨rfl⟩
    have hold := h.factory ch.factory (by rw [hch]; rfl)
    unfold StrategyFactory.Builds at hold ⊢
    rwa [hfactory]
  session := by
    show Option.Rel _ _ (chs[c]?.bind _)
    rw [hch']
    exact hsession
  parked := h.parked
  buried := h.buried
  delivered := h.delivered

omit [Crates] [Net N] in
/-- What is shown of a channel that is hosted. -/
theorem Shows.hosted (h : e.Shows c m sc) {ch : Channel RsStrategy} (hch : e.channels[c]? = some ch) :
    sc.subscribers = some ch.subscribers ∧ Option.Rel Session.Twin sc.session ch.sessions[m]? := by
  have hsubs := h.subscribers
  have hsession := h.session
  rw [session?, hch] at hsession
  rw [hch] at hsubs
  exact ⟨hsubs.symm, hsession⟩

omit [Net N] [Crates] in
/-- Operations that twins answer alike. -/
theorem rel_map {f g : Session RsStrategy → Session RsStrategy} {o o' : Option (Session RsStrategy)}
    (hfg : ∀ s s', s.Twin s' → (f s).Twin (g s')) (h : Option.Rel Session.Twin o o') :
    Option.Rel Session.Twin (o.map f) (o'.map g) := by
  cases h with
  | none => exact .none
  | some hs => exact .some (hfg _ _ hs)

omit [Net N] [Crates] in
/-- An update of the session is shown on the screen. -/
theorem Shows.modifySession (h : e.Shows c m sc) {f g : Session RsStrategy → Session RsStrategy}
    (hfg : ∀ s s', s.Twin s' → (f s).Twin (g s')) :
    (e.modifySession c m g).Shows c m { sc with session := sc.session.map f } where
  subscribers := ((DrainFrame.modifySession e g).subscribers_eq c).trans h.subscribers
  factory := by rw [(DrainFrame.modifySession (c := c) (m := m) e g).factory_eq]; exact h.factory
  session := by
    rw [session?_modifySession_self]
    exact rel_map hfg h.session
  parked := h.parked
  buried := h.buried
  delivered := h.delivered

omit [Net N] [Crates] in
/-- Another session is updated. -/
theorem Shows.modifySession_ne (h : e.Shows c m sc) {c' : ChannelId} {m' : MessageId}
    (hk : ¬ (c' = c ∧ m' = m)) (g : Session RsStrategy → Session RsStrategy) :
    (e.modifySession c' m' g).Shows c m sc where
  subscribers := ((DrainFrame.modifySession (c := c') (m := m') e g).subscribers_eq c).trans h.subscribers
  factory := by rw [(DrainFrame.modifySession (c := c') (m := m') e g).factory_eq]; exact h.factory
  session := by
    rw [session?_modifySession, if_neg hk]
    exact h.session
  parked := h.parked
  buried := h.buried
  delivered := h.delivered

/-- A drain without a session does nothing. -/
theorem drainSession_none (hs : e.session? c m = none) : (e.drainSession c m).2 = e := by
  simp only [drainSession, drainFuel, drainLoop, drainRound, hs]

/-- **A drain, of whatever session, shows of no message.** -/
theorem Shows.drainSession (h : e.Shows c m sc) (c' : ChannelId) (m' : MessageId) :
    (e.drainSession c' m').2.Shows c m sc := by
  have hsteps := drainSession_steps e c' m'
  have hframe := hsteps.frame
  refine
    { subscribers := (hframe.subscribers_eq c).trans h.subscribers
      factory := by rw [hframe.factory_eq]; exact h.factory
      session := ?_
      parked := by rw [hframe.parkedChunks_eq]; exact h.parked
      buried := by unfold isTombstoned; rw [hframe.tombstones_eq]; exact h.buried
      delivered := by rw [hframe.delivered_eq]; exact h.delivered }
  by_cases hk : c' = c ∧ m' = m
  · obtain ⟨rfl, rfl⟩ := hk
    cases hs : e.session? c' m' with
    | none =>
      rw [drainSession_none hs]
      exact h.session
    | some s =>
      obtain ⟨s', hs', hstate, hstore, hpeers⟩ := hsteps.session hs
      have hsession := h.session
      rw [hs] at hsession
      rw [hs']
      generalize sc.session = o at hsession
      cases hsession with
      | some htwin => exact .some (htwin.drained hstate hstore hpeers)
  · rw [hframe.session_ne c m hk]
    exact h.session

/-- Drains are not shown: they leave sessions their twins. -/
theorem Shows.drainEach (ms : List MessageId) (h : e.Shows c m sc) (c' : ChannelId) :
    (drainEach c' ms e).2.Shows c m sc := by
  induction ms generalizing e with
  | nil => exact h
  | cons m' ms ih =>
    have hdrained := h.drainSession c' m'
    unfold Engine.drainEach
    rcases hdrain : e.drainSession c' m' with ⟨err | _, e'⟩ <;> rw [hdrain] at hdrained
    · exact hdrained
    · exact ih hdrained

theorem Shows.drainChannel (h : e.Shows c m sc) (c' : ChannelId) :
    (e.drainChannel c').2.Shows c m sc := by
  unfold Engine.drainChannel
  split
  · exact h
  · exact h.drainEach _ c'

/-! ### Peers come and go -/

omit [Net N] in
/-- A peer is enrolled on the screen if the channel is ours. -/
theorem Shows.subscribePeer (h : e.Shows c m sc) (c' : ChannelId) (p : PeerId) :
    (e.subscribePeer c' p).Shows c m (if c' = c then sc.enrol p else sc) := by
  have hget := BTreeMap.get_modify e.channels c' c fun ch => ch.subscribePeer p
  split
  case isFalse hc =>
    rw [if_neg hc] at hget
    exact h.channels hget
  case isTrue hc =>
    subst hc
    rw [if_pos rfl] at hget
    unfold Scene.enrol
    cases hch : e.channels[c']? with
    | none =>
      rw [← h.subscribers, hch]
      exact h.channels (hget.trans (by rw [hch]; rfl))
    | some ch =>
      obtain ⟨hsubs, hsession⟩ := h.hosted hch
      rw [hch] at hget
      rw [hsubs]
      dsimp only
      -- a peer that is a subscriber already is not attached again
      by_cases hp : p ∈ ch.subscribers
      · have hsame : ch.subscribePeer p = ch := if_pos hp
        rw [if_pos hp]
        exact h.channels (hget.trans ((congrArg some hsame).trans hch.symm))
      · have hnew : ch.subscribePeer p = { ch with
            subscribers := ch.subscribers.insert p
            sessions := ch.sessions.map fun _ s => s.attachPeer p } := if_neg hp
        rw [if_neg hp]
        refine h.replaced hch (hget.trans (congrArg some hnew)) rfl _ ?_
        rw [ExtTreeMap.getElem?_map]
        exact rel_map (fun _ _ hs => hs.attachPeer p) hsession

omit [Net N] in
/-- The channel after a peer left it. -/
theorem Shows.left (h : e.Shows c m sc) (p : PeerId) {chs : BTreeMap ChannelId (Channel RsStrategy)}
    (hchs : chs[c]? = e.channels[c]?.map (·.unsubscribePeer p)) :
    { e with channels := chs }.Shows c m (sc.leave p) := by
  unfold Scene.leave
  cases hch : e.channels[c]? with
  | none =>
    rw [← h.subscribers, hch]
    exact h.channels (hchs.trans (by rw [hch]; rfl))
  | some ch =>
    obtain ⟨hsubs, hsession⟩ := h.hosted hch
    rw [hch] at hchs
    rw [hsubs]
    dsimp only
    by_cases hp : p ∈ ch.subscribers
    · have hleft : ch.unsubscribePeer p = { ch with
          subscribers := ch.subscribers.erase p
          sessions := ch.sessions.map fun _ s => s.detachPeer p false } := if_pos hp
      rw [if_pos hp]
      refine h.replaced hch (hchs.trans (congrArg some hleft)) rfl _ ?_
      rw [ExtTreeMap.getElem?_map]
      exact rel_map (fun _ _ hs => hs.detachPeer p false) hsession
    · have hsame : ch.unsubscribePeer p = ch := if_neg hp
      rw [if_neg hp]
      exact h.channels (hchs.trans ((congrArg some hsame).trans hch.symm))

omit [Net N] in
/-- A peer leaves the channel on the screen if it is ours. -/
theorem Shows.unsubscribePeer (h : e.Shows c m sc) (c' : ChannelId) (p : PeerId) :
    (e.unsubscribePeer c' p).Shows c m (if c' = c then sc.leave p else sc) := by
  have hget := BTreeMap.get_modify e.channels c' c fun ch => ch.unsubscribePeer p
  split
  case isFalse hc =>
    rw [if_neg hc] at hget
    exact h.channels hget
  case isTrue hc =>
    subst hc
    rw [if_pos rfl] at hget
    exact h.left p hget

omit [Net N] in
/-- A peer that is gone leaves every channel, ours included. -/
theorem Shows.handlePeerDisconnected (h : e.Shows c m sc) (p : PeerId) :
    (e.handlePeerDisconnected p).Shows c m (sc.leave p) := by
  have hget : (e.channels.map fun _ ch => ch.unsubscribePeer p)[c]? = e.channels[c]?.map (·.unsubscribePeer p) :=
    ExtTreeMap.getElem?_map ..
  have hleft := h.left p hget
  exact { hleft with }

/-- The channels of a handshake: only ours is shown. -/
theorem Shows.enrolEach (cs : List ChannelId) (h : e.Shows c m sc) (p : PeerId) :
    (enrolEach p cs e).Shows c m (cs.foldl (fun sc c' => if c' = c then sc.enrol p else sc) sc) := by
  induction cs generalizing e sc with
  | nil => exact h
  | cons c' cs ih => exact ih ((h.subscribePeer c' p).drainChannel c')

/-! ### Chunks and decodes -/

omit [Net N] in
/-- A chunk of the session is taken by the account as by the session, and completes both or neither. -/
theorem Shows.takeChunk {a : Account} (h : e.Shows c m (sc.settled a)) (chunk : Nat × Bytes) :
    (e.takeChunk c m chunk.1 chunk.2).1 = a.session.completes chunk.1 chunk.2
      ∧ (e.takeChunk c m chunk.1 chunk.2).2.Shows c m (sc.settled (a.take chunk)) := by
  have hsession := h.session
  generalize hs : e.session? c m = o at hsession
  cases hsession with
  | @some _ s htwin =>
    refine ⟨(takeChunk_completes hs chunk.1 chunk.2).trans (htwin.toAlike.takeChunk ..).1, ?_⟩
    rw [takeChunk_eq]
    exact h.modifySession (f := fun s => (s.takeChunk chunk.1 chunk.2).2)
      fun _ _ hs => hs.takeChunk chunk.1 chunk.2

omit [Net N] in
/-- A chunk of another session is not shown. -/
theorem Shows.takeChunk_ne (h : e.Shows c m sc) {c' : ChannelId} {m' : MessageId}
    (hk : ¬ (c' = c ∧ m' = m)) (idx : Nat) (data : Bytes) : (e.takeChunk c' m' idx data).2.Shows c m sc := by
  rw [takeChunk_eq]
  exact h.modifySession_ne hk _

/-- What a decode of a live session does. -/
theorem maybeDecodeAndDeliver_some {s : Session RsStrategy} (hs : e.session? c m = some s) :
    ∃ clock sessionMeta net, e.maybeDecodeAndDeliver c m
      = { e.modifySession c m fun _ => s.decodeAndFinish.2 with
        clock
        sessionMeta
        net
        delivered := match s.decodeAndFinish.1 with
          | .ok payload => (e.delivered.trySend ⟨c, m, payload⟩).2
          | .error _ => e.delivered } := by
  obtain ⟨clock, sessionMeta, hmark⟩ := markSessionTerminal_frame
    (e.modifySession c m fun _ => s.decodeAndFinish.2) c m
  simp only [maybeDecodeAndDeliver_eq, hs, afterDecode, hmark]
  cases s.decodeAndFinish.1 with
  | ok payload => exact ⟨clock, sessionMeta, _, rfl⟩
  | error err => exact ⟨clock, sessionMeta, _, rfl⟩

/-- A decoding with room in the sink delivers what the account settles. -/
theorem Shows.maybeDecodeAndDeliver {a : Account} (h : e.Shows c m (sc.settled a))
    (hroom : e.delivered.queue.length < e.delivered.capacity) :
    (e.maybeDecodeAndDeliver c m).Shows c m (sc.settled (a.settle c m)) := by
  have hsession := h.session
  generalize hs : e.session? c m = o at hsession
  cases hsession with
  | @some _ s htwin =>
    obtain ⟨hresult, hafter⟩ := htwin.toAlike.decodeAndFinish
    have hmodified := h.modifySession (f := fun _ => a.session.decodeAndFinish.2)
      (g := fun _ => s.decodeAndFinish.2) fun _ _ _ => htwin.decodeAndFinish
    obtain ⟨clock, sessionMeta, net, hdecode⟩ := maybeDecodeAndDeliver_some hs
    rw [hdecode]
    refine { hmodified with delivered := ?_ }
    show Sink.only (c, m) (match s.decodeAndFinish.1 with | .ok payload => _ | .error _ => _) = _
    rw [hresult]
    unfold Scene.settled Account.settle
    cases a.session.decodeAndFinish.1 with
    | ok payload =>
      refine (Sink.only_trySend hroom rfl).trans ?_
      rw [h.delivered]
      rfl
    | error err => exact h.delivered

/-- A decode of another session goes elsewhere in the sink. -/
theorem Shows.maybeDecodeAndDeliver_ne (h : e.Shows c m sc) {c' : ChannelId} {m' : MessageId}
    (hk : ¬ (c' = c ∧ m' = m)) : (e.maybeDecodeAndDeliver c' m').Shows c m sc := by
  cases hs : e.session? c' m' with
  | none =>
    rw [maybeDecodeAndDeliver_eq, hs]
    exact h
  | some s =>
    have hmodified := h.modifySession_ne hk fun _ => s.decodeAndFinish.2
    obtain ⟨clock, sessionMeta, net, hdecode⟩ := maybeDecodeAndDeliver_some hs
    rw [hdecode]
    refine { hmodified with delivered := ?_ }
    dsimp only
    cases s.decodeAndFinish.1 with
    | ok payload => exact (Sink.only_trySend_ne (by simpa using hk)).trans h.delivered
    | error err => exact h.delivered

omit [Net N] [Crates] in
/-- A chunk of the message is parked. -/
theorem Shows.parkChunk (h : e.Shows c m sc) (chunk : Nat × Bytes) :
    (e.parkChunk c m chunk.1 chunk.2).Shows c m { sc with
      parked := (if sc.parked.length ≥ maxParkedChunksPerMessage then sc.parked.tail else sc.parked)
        ++ [chunk] } := by
  refine { h with parked := ?_ }
  obtain ⟨buf, hbuf⟩ : ∃ buf, e.parkedChunks.getD (c, m) [] = buf := ⟨_, rfl⟩
  have hparked := h.parked
  rw [← ExtTreeMap.getD_eq_getD_getElem?, hbuf] at hparked
  have hget : (e.parkChunk c m chunk.1 chunk.2).parkedChunks[(c, m)]?
      = some (parkIn buf ⟨chunk.1, chunk.2, e.now.1⟩) := by
    show (e.parkedChunks.insert (c, m) (parkIn (e.parkedChunks.getD (c, m) []) _))[(c, m)]? = _
    rw [hbuf, BTreeMap.get_insert, if_pos rfl]
    rfl
  rw [hget, Option.getD_some, ← hparked]
  unfold parkIn
  rw [List.length_map]
  split
  · rw [List.map_append, ← List.map_tail]
    rfl
  · rw [List.map_append]
    rfl

omit [Net N] [Crates] in
/-- A chunk of another message is parked. -/
theorem Shows.parkChunk_ne (h : e.Shows c m sc) {c' : ChannelId} {m' : MessageId}
    (hk : ¬ (c' = c ∧ m' = m)) (idx : Nat) (data : Bytes) : (e.parkChunk c' m' idx data).Shows c m sc := by
  refine { h with parked := ?_ }
  have hget := BTreeMap.get_insert e.parkedChunks (c', m') (c, m) (parkIn (e.parkedChunks.getD (c', m') [])
    ⟨idx, data, e.now.1⟩)
  rw [if_neg (by simpa using hk)] at hget
  have hsame : (e.parkChunk c' m' idx data).parkedChunks[(c, m)]? = e.parkedChunks[(c, m)]? := hget
  rw [hsame]
  exact h.parked

/-- A chunk of our message: dropped, parked or taken, by what is on the screen. -/
theorem Shows.handleChunk (h : e.Shows c m sc)
    (hroom : e.delivered.queue.length < e.delivered.capacity) (chunk : Nat × Bytes) :
    (e.handleChunk c m chunk.1 chunk.2).Shows c m (sc.chunk c m chunk) := by
  unfold Engine.handleChunk Scene.chunk
  rw [h.buried]
  split
  · exact h
  have hsession := h.session
  generalize e.session? c m = o at hsession
  generalize ho : sc.session = o₀ at hsession
  cases hsession with
  | none =>
    have hparked := h.parkChunk chunk
    rw [ho] at hparked
    exact hparked
  | some htwin =>
    rw [← Scene.settled_account ho] at h
    obtain ⟨hflag, htaken⟩ := h.takeChunk chunk
    have hdrained := htaken.drainSession c m
    have hdelivered : ((e.takeChunk c m chunk.1 chunk.2).2.drainSession c m).2.delivered = e.delivered := by
      rw [(drainSession_steps _ c m).frame.delivered_eq, takeChunk_eq]
      rfl
    simp only [Option.isNone_some, Bool.false_eq_true, if_false]
    rw [hflag]
    unfold Account.arrive
    split
    · exact hdrained.maybeDecodeAndDeliver (by rw [hdelivered]; exact hroom)
    · exact hdrained

/-- A chunk of another message. -/
theorem Shows.handleChunk_ne (h : e.Shows c m sc) {c' : ChannelId} {m' : MessageId}
    (hk : ¬ (c' = c ∧ m' = m)) (idx : Nat) (data : Bytes) : (e.handleChunk c' m' idx data).Shows c m sc := by
  have hdrained := (h.takeChunk_ne hk idx data).drainSession c' m'
  unfold Engine.handleChunk
  dsimp only
  split
  · exact h
  split
  · exact h.parkChunk_ne hk idx data
  split
  · exact hdrained.maybeDecodeAndDeliver_ne hk
  · exact hdrained

/-! ### Opening a session -/

omit [Net N] in
/-- The parked chunks are taken one after the other, by the account too. -/
theorem Shows.replayEach {a : Account} (chunks : List ParkedChunk) (anyComplete : Bool)
    (h : e.Shows c m (sc.settled a)) :
    (replayEach c m chunks anyComplete e).1
        = (Account.takeAll (chunks.map fun p => (p.chunkId, p.payload)) anyComplete a).1
      ∧ (replayEach c m chunks anyComplete e).2.Shows c m (sc.settled
        (Account.takeAll (chunks.map fun p => (p.chunkId, p.payload)) anyComplete a).2)
      ∧ (replayEach c m chunks anyComplete e).2.delivered = e.delivered := by
  induction chunks generalizing anyComplete e a with
  | nil => exact ⟨rfl, h, rfl⟩
  | cons chunk chunks ih =>
    obtain ⟨hflag, htaken⟩ := h.takeChunk (chunk.chunkId, chunk.payload)
    obtain ⟨hany, hrest, hdelivered⟩ :=
      ih (anyComplete || a.session.completes chunk.chunkId chunk.payload) htaken
    rw [← hflag] at hany hrest hdelivered
    rw [List.map_cons, Account.takeAll, ← hflag]
    refine ⟨hany, hrest, hdelivered.trans ?_⟩
    rw [takeChunk_eq]
    rfl

/-- The replay of our session's parked chunks. -/
theorem Shows.replayParkedChunks {a : Account} (h : e.Shows c m (sc.settled a))
    (hroom : e.delivered.queue.length < e.delivered.capacity) :
    (e.replayParkedChunks c m).Shows c m
      ({ sc with parked := [] }.settled (a.replay c m sc.parked)) := by
  have hparked : _ = sc.parked := h.parked
  unfold Engine.replayParkedChunks
  cases hbuf : e.parkedChunks[(c, m)]? with
  | none =>
    rw [hbuf] at hparked
    rw [← hparked]
    exact { h with parked := by rw [hbuf]; rfl }
  | some parked =>
    rw [hbuf, Option.getD_some] at hparked
    rw [← hparked]
    have herased : { e with parkedChunks := e.parkedChunks.erase (c, m) }.Shows c m
        ({ sc with parked := [] }.settled a) := by
      refine { h with parked := ?_ }
      rw [BTreeMap.get_erase, if_pos rfl]
      rfl
    obtain ⟨hflag, htaken, hdelivered⟩ := herased.replayEach parked false
    have hdrained := htaken.drainSession c m
    dsimp only
    rw [hflag, Account.replay, Account.close]
    split
    · refine hdrained.maybeDecodeAndDeliver ?_
      rw [(drainSession_steps _ c m).frame.delivered_eq, hdelivered]
      exact hroom
    · exact hdrained

/-- The replay of another session's. -/
theorem Shows.replayParkedChunks_ne (h : e.Shows c m sc) {c' : ChannelId} {m' : MessageId}
    (hk : ¬ (c' = c ∧ m' = m)) : (e.replayParkedChunks c' m').Shows c m sc := by
  have hreplay : ∀ (chunks : List ParkedChunk) (anyComplete : Bool) {e : Engine RsStrategy N},
      e.Shows c m sc → (Engine.replayEach c' m' chunks anyComplete e).2.Shows c m sc := by
    intro chunks
    induction chunks with
    | nil => exact fun _ _ h => h
    | cons chunk chunks ih => exact fun _ _ h => ih _ (h.takeChunk_ne hk chunk.chunkId chunk.payload)
  unfold Engine.replayParkedChunks
  split
  · exact h
  case h_2 parked hbuf =>
    have herased : { e with parkedChunks := e.parkedChunks.erase (c', m') }.Shows c m sc := by
      refine { h with parked := ?_ }
      rw [BTreeMap.get_erase, if_neg (by simpa using hk)]
      exact h.parked
    have hdrained := (hreplay parked false herased).drainSession c' m'
    dsimp only
    split
    · exact hdrained.maybeDecodeAndDeliver_ne hk
    · exact hdrained

omit [Net N] in
/-- Twins that attach the same peers. -/
theorem Shows.withRelay (h : e.Shows c m sc) {ch : Channel RsStrategy} (hch : e.channels[c]? = some ch)
    (factory : StrategyFactory RsStrategy) (hfactory : factory.build = ch.factory.build)
    {strategy strategy₀ : RsStrategy} (hstore : strategy₀.SameStore strategy)
    (hpeers : strategy.attachedPeers = strategy₀.attachedPeers) (preamble : Bytes) :
    (e.withRelay c m preamble { ch with
        factory
        sessions := ch.sessions.insert m (ch.attachAll (Session.newRelay strategy)) }).Shows c m
      (sc.settled (sc.account
        (ch.subscribers.toList.foldl Session.attachPeer (Session.newRelay strategy₀)))) := by
  obtain ⟨hsubs, -⟩ := h.hosted hch
  have htwin : (Session.newRelay strategy₀).Twin (Session.newRelay strategy) := ⟨⟨rfl, hstore⟩, hpeers⟩
  obtain ⟨clock, sessionMeta, hrelay⟩ := e.withRelay_eq c m preamble { ch with
    factory
    sessions := ch.sessions.insert m (ch.attachAll (Session.newRelay strategy)) }
  have hreplaced := h.replaced (m := m) hch
    (BTreeMap.get_insert e.channels c c { ch with
      factory
      sessions := ch.sessions.insert m (ch.attachAll (Session.newRelay strategy)) } |>.trans (if_pos rfl))
    hfactory
    (some (ch.subscribers.toList.foldl Session.attachPeer (Session.newRelay strategy₀))) (by
      rw [BTreeMap.get_insert, if_pos rfl]
      exact .some (htwin.attachEach ch.subscribers.toList))
  rw [hrelay]
  refine { hreplaced with subscribers := ?_, }
  exact hreplaced.subscribers.trans hsubs.symm

omit [Crates] [Net N] in
/-- A factory that builds nothing leaves the channel as it was, its counter aside. -/
theorem Shows.counted (h : e.Shows c m sc) {c' : ChannelId} {ch : Channel RsStrategy}
    (hch : e.channels[c']? = some ch) (counter : Nat) :
    { e with channels := e.channels.insert c' { ch with factory := { ch.factory with counter } } }.Shows
      c m sc := by
  have hget := BTreeMap.get_insert e.channels c' c { ch with factory := { ch.factory with counter } }
  by_cases hc : c' = c
  · subst hc
    obtain ⟨hsubs, hsession⟩ := h.hosted hch
    have hreplaced := h.replaced (m := m) hch (hget.trans (if_pos rfl)) rfl _ hsession
    exact { hreplaced with subscribers := hreplaced.subscribers.trans hsubs.symm }
  · exact h.channels (hget.trans (if_neg hc))

/-- A `SessionOpen` of our message builds the relay that is shown, as the factory's builder is pure. -/
theorem Shows.handleSessionOpen (h : e.Shows c m sc)
    (hroom : e.delivered.queue.length < e.delivered.capacity) (preamble : Bytes) :
    (e.handleSessionOpen c m preamble).Shows c m (sc.open_ c m preamble) := by
  unfold Engine.handleSessionOpen Scene.open_
  rw [h.buried]
  split
  · exact h
  cases hch : e.channels[c]? with
  | none =>
    rw [← h.subscribers, hch]
    exact h
  | some ch =>
    obtain ⟨hsubs, hsession⟩ := h.hosted hch
    have hbuild := h.factory ch.factory (by rw [hch]; rfl) ch.factory.counter preamble
    rw [hsubs]
    generalize ho : sc.session = o at hsession
    -- the open is refused as a duplicate, by the factory, or it creates the session
    by_cases hm : m ∈ ch.sessions
    · have hopen : ch.openSession m preamble = (.error (.duplicateSession m), ch) := if_pos hm
      rw [ExtTreeMap.getElem?_eq_some_getElem hm] at hsession
      cases hsession with
      | some =>
        simp only [hopen]
        exact h.channels ((BTreeMap.get_insert ..).trans ((if_pos rfl).trans hch.symm))
    · rw [ExtTreeMap.getElem?_eq_none hm] at hsession
      cases hsession with
      | none =>
        cases hres : (ch.factory.build ch.factory.counter preamble).1 with
        | error err =>
          have hopen : ch.openSession m preamble = (.error err, { ch with factory :=
              { ch.factory with counter := (ch.factory.build ch.factory.counter preamble).2 } }) := by
            unfold Channel.openSession StrategyFactory.call
            rw [if_neg hm, hres]
          rw [hres] at hbuild
          simp only [hopen, show sc.build preamble = none from hbuild]
          exact h.counted hch _
        | ok strategy =>
          rw [hres] at hbuild
          obtain ⟨strategy₀, hbuilt, hstore, hpeers⟩ := hbuild
          have hopen : ch.openSession m preamble = (.ok (), { ch with
              factory := { ch.factory with counter := (ch.factory.build ch.factory.counter preamble).2 }
              sessions := ch.sessions.insert m (ch.attachAll (Session.newRelay strategy)) }) := by
            unfold Channel.openSession StrategyFactory.call
            rw [if_neg hm, hres]
          simp only [hopen, hbuilt]
          -- the new session is drained first, then fed the parked chunks
          have hopened := (h.withRelay hch { ch.factory with
              counter := (ch.factory.build ch.factory.counter preamble).2 } rfl hstore hpeers
            preamble).drainSession c m
          have hroom' : ((e.withRelay c m preamble { ch with
              factory := { ch.factory with counter := (ch.factory.build ch.factory.counter preamble).2 }
              sessions := ch.sessions.insert m (ch.attachAll (Session.newRelay strategy)) }).drainSession
                c m).2.delivered = e.delivered := by
            rw [(drainSession_steps _ c m).frame.delivered_eq]
            obtain ⟨clock, sessionMeta, hrelay⟩ := e.withRelay_eq c m preamble { ch with
              factory := { ch.factory with counter := (ch.factory.build ch.factory.counter preamble).2 }
              sessions := ch.sessions.insert m (ch.attachAll (Session.newRelay strategy)) }
            rw [hrelay]
          have hreplayed := hopened.replayParkedChunks (by rw [hroom']; exact hroom)
          rw [hsubs] at hreplayed
          exact hreplayed

omit [Crates] [Net N] in
/-- A session of another message is created. -/
theorem Shows.withRelay_ne (h : e.Shows c m sc) {c' : ChannelId} {m' : MessageId}
    (hk : ¬ (c' = c ∧ m' = m)) {ch : Channel RsStrategy} (hch : e.channels[c']? = some ch) (counter : Nat)
    (s : Session RsStrategy) (preamble : Bytes) :
    (e.withRelay c' m' preamble { ch with
      factory := { ch.factory with counter }
      sessions := ch.sessions.insert m' s }).Shows c m sc := by
  obtain ⟨clock, sessionMeta, hrelay⟩ := e.withRelay_eq c' m' preamble { ch with
    factory := { ch.factory with counter }
    sessions := ch.sessions.insert m' s }
  have hget := BTreeMap.get_insert e.channels c' c { ch with
    factory := { ch.factory with counter }
    sessions := ch.sessions.insert m' s }
  rw [hrelay]
  by_cases hc : c' = c
  · subst hc
    have hm : m' ≠ m := fun hm => hk ⟨rfl, hm⟩
    obtain ⟨hsubs, hsession⟩ := h.hosted hch
    have hreplaced := h.replaced (m := m) hch (hget.trans (if_pos rfl)) rfl sc.session (by
      rw [BTreeMap.get_insert, if_neg hm]
      exact hsession)
    exact { hreplaced with subscribers := hreplaced.subscribers.trans hsubs.symm }
  · exact { h.channels (hget.trans (if_neg hc)) with }

/-- The `SessionOpen` of another message. -/
theorem Shows.handleSessionOpen_ne (h : e.Shows c m sc) {c' : ChannelId} {m' : MessageId}
    (hk : ¬ (c' = c ∧ m' = m)) (preamble : Bytes) : (e.handleSessionOpen c' m' preamble).Shows c m sc := by
  unfold Engine.handleSessionOpen
  split
  · exact h
  cases hch : e.channels[c']? with
  | none => exact h
  | some ch =>
    dsimp only
    unfold Channel.openSession StrategyFactory.call
    by_cases hm : m' ∈ ch.sessions
    · rw [if_pos hm]
      exact h.counted hch ch.factory.counter
    · rw [if_neg hm]
      cases hres : (ch.factory.build ch.factory.counter preamble).1 with
      | error err => exact h.counted hch _
      | ok strategy =>
        have hopened := h.withRelay_ne hk hch (ch.factory.build ch.factory.counter preamble).2
          (ch.attachAll (Session.newRelay strategy)) preamble
        exact (hopened.drainSession c' m').replayParkedChunks_ne hk

/-! ### Events -/

omit [Crates] in
theorem Shows.registerPeerAndHandshake (h : e.Shows c m sc) (p : PeerId) :
    (e.registerPeerAndHandshake p).2.Shows c m sc := by
  unfold Engine.registerPeerAndHandshake
  split
  · exact h
  · rw [send_eq]
    exact { h with }

/-- A result is not shown, whosoever it is. -/
theorem Shows.resolveChunkSend (h : e.Shows c m sc) (p : PeerId) (c' : ChannelId) (m' : MessageId)
    (token : DispatchHandle) (ok : Bool) : (e.resolveChunkSend p c' m' token ok).Shows c m sc := by
  unfold Engine.resolveChunkSend
  split
  case isFalse => exact h
  case isTrue =>
    have hanswered : { e with pendingSends := e.pendingSends.erase (c', m', token) }.Shows c m sc :=
      { h with }
    refine Shows.drainSession ?_ c' m'
    by_cases hk : c' = c ∧ m' = m
    · obtain ⟨rfl, rfl⟩ := hk
      have hsent := hanswered.modifySession (f := id) (g := fun s => s.chunkSent p token ok)
        fun _ _ hs => hs.chunkSent p token ok
      rw [Option.map_id] at hsent
      exact hsent
    · exact hanswered.modifySession_ne hk _

omit [Net N] in
/-- A peer is detached from our session, or from another. -/
theorem Shows.detachSessionPeer (h : e.Shows c m sc) (c' : ChannelId) (m' : MessageId) (p : PeerId)
    (completed : Bool) : (e.detachSessionPeer c' m' p completed).Shows c m
      (if c' = c ∧ m' = m then sc.detach p completed else sc) := by
  split
  case isTrue hk =>
    obtain ⟨rfl, rfl⟩ := hk
    exact h.modifySession fun _ _ hs => hs.detachPeer p completed
  case isFalse hk => exact h.modifySession_ne hk _

/-- **The engine refines the scene of every message**: an event does to what it shows of a message what
it does to the scene. -/
theorem Shows.handleEvent (h : e.Shows c m sc)
    (hroom : e.delivered.queue.length < e.delivered.capacity) (ev : NetEvent) :
    (e.handleEvent ev).Shows c m (sc.on c m ev) := by
  -- only an event that names `(c, m)`, or a peer of `c`, moves the scene
  cases ev with
  | handshake peer version channels name =>
    unfold Engine.handleEvent Scene.on
    dsimp only
    split
    · have hgreeted : { e with connected := e.connected.insert peer }.Shows c m sc := { h with }
      exact hgreeted.enrolEach channels peer
    · exact { h with }
  | subscribe peer c' => exact (h.subscribePeer c' peer).drainChannel c'
  | unsubscribe peer c' => exact h.unsubscribePeer c' peer
  | sessionOpen peer c' m' preamble update =>
    unfold Engine.handleEvent Scene.on
    dsimp only
    split
    case isTrue hk =>
      obtain ⟨rfl, rfl⟩ := hk
      exact h.handleSessionOpen hroom preamble
    case isFalse hk => exact h.handleSessionOpen_ne hk preamble
  | chunk peer c' m' chunkId payload =>
    unfold Engine.handleEvent Scene.on
    dsimp only
    split
    case isTrue hk =>
      obtain ⟨rfl, rfl⟩ := hk
      exact h.handleChunk hroom (chunkId, payload)
    case isFalse hk => exact h.handleChunk_ne hk chunkId payload
  | routingUpdate => exact h
  | peerDisconnected peer => exact h.handlePeerDisconnected peer
  | peerConnected peer => exact h.registerPeerAndHandshake peer
  | chunkSendResult peer c' m' token ok => exact h.resolveChunkSend peer c' m' token ok
  | peerReconstructed peer c' m' => exact h.detachSessionPeer c' m' peer true
  | sessionClosed peer c' m' => exact h.detachSessionPeer c' m' peer false

end Shows

/-! ## Two runs -/

section Runs

variable [Crates] {N : Type} [Net N] {e : Engine RsStrategy N} {c : ChannelId} {m : MessageId}
  {sc : Scene}

/-- The sink takes what the event may deliver, and no sweep follows the event. -/
def Quiet (e : Engine RsStrategy N) (i : Input RsStrategy) : Prop :=
  e.delivered.queue.length < e.delivered.capacity ∧ (e.beforeSweep i).now.1 < (e.beforeSweep i).nextCleanup

instance (e : Engine RsStrategy N) (i : Input RsStrategy) : Decidable (e.Quiet i) :=
  inferInstanceAs (Decidable (_ ∧ _))

/-- **One event** moves the screen by itself alone. -/
theorem Shows.step (h : e.Shows c m sc) {ev : NetEvent} (hquiet : e.Quiet (.event ev)) :
    (e.step (.event ev)).2.Shows c m (sc.on c m ev) := by
  obtain ⟨hroom, hstill⟩ := hquiet
  have hhandled := h.handleEvent hroom ev
  rw [step_eq]
  rw [← beforeSweep_event] at hhandled
  unfold maybeRunCleanup
  dsimp only
  split
  case isTrue => exact { hhandled with }
  case isFalse hsweep => exact absurd hstill hsweep

/-- A run does to what the engine shows of a message what it does to the scene. -/
theorem Shows.run (events : List NetEvent) (h : e.Shows c m sc)
    (hquiet : e.EachStep Quiet (events.map .event)) :
    (e.run (events.map .event)).Shows c m (events.foldl (Scene.on c m) sc) := by
  induction events generalizing e sc with
  | nil => exact h
  | cons ev events ih => exact ih (h.step hquiet.1) hquiet.2

omit [Net N] in
/-- Events of other sessions may be left out of a scene. -/
theorem foldl_on_filter (events : List NetEvent) (sc : Scene) :
    (events.filter (·.concerns (c, m))).foldl (Scene.on c m) sc = events.foldl (Scene.on c m) sc := by
  induction events generalizing sc with
  | nil => rfl
  | cons ev events ih =>
    cases hev : ev.concerns (c, m) with
    | true =>
      rw [List.filter_cons_of_pos hev]
      exact ih _
    | false =>
      rw [List.filter_cons_of_neg (by simp [hev]), List.foldl_cons, Scene.on_foreign hev]
      exact ih sc

/-- The two engines look the same at the message: neither has a session of it, or both have one in the same
state, with the same preamble, shards and attached peers; and the same of its payloads wait in the sinks. -/
structure LooksLike (e e' : Engine RsStrategy N) (c : ChannelId) (m : MessageId) : Prop where
  session : (e'.session? c m).map (fun s => (s.state, s.strategy.preamble, s.strategy.chunks,
      s.strategy.attachedPeers))
    = (e.session? c m).map (fun s => (s.state, s.strategy.preamble, s.strategy.chunks,
      s.strategy.attachedPeers))
  delivered : e'.delivered.queue.filter (fun d => (d.channelId, d.messageId) = (c, m))
    = e.delivered.queue.filter (fun d => (d.channelId, d.messageId) = (c, m))

omit [Crates] [Net N] in
/-- Twins look the same. -/
theorem rel_look {o o' : Option (Session RsStrategy)} (h : Option.Rel Session.Twin o o') :
    o'.map (fun s => (s.state, s.strategy.preamble, s.strategy.chunks, s.strategy.attachedPeers))
      = o.map (fun s => (s.state, s.strategy.preamble, s.strategy.chunks, s.strategy.attachedPeers)) := by
  cases h with
  | none => rfl
  | some h =>
    rw [Option.map_some, Option.map_some, h.state_eq, h.store.preamble_eq, h.store.chunks_eq,
      h.attachedPeers_eq]

omit [Crates] [Net N] in
/-- Engines that show one scene of a message look the same at it. -/
theorem Shows.looksLike {e' : Engine RsStrategy N} (h : e.Shows c m sc) (h' : e'.Shows c m sc) :
    e.LooksLike e' c m where
  session := (rel_look h'.session).trans (rel_look h.session).symm
  delivered := congrArg Sink.queue (h'.delivered.trans h.delivered.symm)

/-- **Sessions do not influence each other**: in any state of an engine, events of other sessions may be
left out of a run, and the engine looks the same at this one, whatever the transport answers.  The channel's
factory must not tell its calls apart. -/
theorem run_noninterference (e : Engine RsStrategy N) (c : ChannelId) (m : MessageId)
    (hsteady : ∀ f ∈ e.channels[c]?.map Channel.factory, f.Steady) (events : List NetEvent)
    (hquiet : e.EachStep Quiet (events.map .event))
    (hquiet' : e.EachStep Quiet ((events.filter (·.concerns (c, m))).map .event)) :
    LooksLike (e.run (events.map .event))
      (e.run ((events.filter (·.concerns (c, m))).map .event)) c m := by
  obtain ⟨sc, hsc⟩ := exists_shows (m := m) hsteady
  have hfiltered := hsc.run _ hquiet'
  rw [foldl_on_filter] at hfiltered
  exact (hsc.run events hquiet).looksLike hfiltered

end Runs

section OneShard

attribute [local instance] oneShard

/-- A node that hosts the channel "c". -/
def hosting (factory : StrategyFactory RsStrategy) : Engine RsStrategy Wire :=
  { nodeTicking 0 with channels := (∅ : BTreeMap ChannelId _).insert "c" (Channel.new "c" factory) }

/-- Messages "m" and "other" come in, the shards of "other" between those of "m". -/
def interleaved : List NetEvent :=
  [.subscribe 1 "c", .sessionOpen 1 "c" "other" (OneShard.preambleBytes OneShard.preamble) [],
    .chunk 1 "c" "m" 0 [1], .chunk 1 "c" "other" 0 [1],
    .sessionOpen 1 "c" "m" (OneShard.preambleBytes OneShard.preamble) [], .sessionClosed 1 "c" "other",
    .subscribe 2 "c"]

/-- Two messages whose events are interleaved. -/
theorem run_noninterference_interleaved :
    LooksLike ((hosting (rsRelayFactory {} fun _ => 7)).run (interleaved.map .event))
      ((hosting (rsRelayFactory {} fun _ => 7)).run
        ((interleaved.filter (·.concerns ("c", "m"))).map .event)) "c" "m" := by
  refine run_noninterference (hosting (rsRelayFactory {} fun _ => 7)) "c" "m" ?_ interleaved
    (by decide +kernel) (by decide +kernel)
  have hhosted : (hosting (rsRelayFactory {} fun _ => 7)).channels["c"]?
      = some (Channel.new "c" (rsRelayFactory {} fun _ => 7)) :=
    (BTreeMap.get_insert ..).trans (if_pos rfl)
  rw [hhosted]
  rintro _ ⟨rfl⟩
  exact rsRelayFactory_steady {} fun _ => 7

/-- A factory that builds one strategy and no second. -/
def buildsOnce : StrategyFactory RsStrategy where
  build n preamble :=
    (if n = 0 then ((rsRelayFactory {} fun _ => 7).build 0 preamble).1
      else .error (.invalidPreamble "no more"), n + 1)
  counter := 0

/-- **A factory that counts its calls shows one session to another**: after the `SessionOpen` of another
message it builds nothing for this one. -/
theorem run_interference :
    (hosting buildsOnce).EachStep Quiet (interleaved.map .event)
    ∧ (hosting buildsOnce).EachStep Quiet ((interleaved.filter (·.concerns ("c", "m"))).map .event)
    ∧ ¬ LooksLike ((hosting buildsOnce).run (interleaved.map .event))
      ((hosting buildsOnce).run ((interleaved.filter (·.concerns ("c", "m"))).map .event)) "c" "m" := by
  have hnone : (((hosting buildsOnce).run (interleaved.map .event)).session? "c" "m").isNone = true := by
    decide +kernel
  have hsome : (((hosting buildsOnce).run ((interleaved.filter (·.concerns ("c", "m"))).map .event)).session?
      "c" "m").isSome = true := by
    decide +kernel
  refine ⟨by decide +kernel, by decide +kernel, fun hlooks => ?_⟩
  have hsession := congrArg Option.isSome hlooks.session
  rw [Option.isSome_map, Option.isSome_map, hsome, Option.isNone_iff_eq_none.mp hnone] at hsession
  cases hsession

end OneShard

end Engine

end Ethp2p
