/-
# Ethp2p.Agreement — every node that delivers a published message delivers the published bytes.

A network is a family of engines, each over an arbitrary transport.  In one step some node takes one
input: any API call, any inbound event, a `recv` of its application.  The network may lose, delay,
reorder, duplicate and misaddress everything, and may forge `Chunk`s and every other event; only a
`SessionOpen` for the published key must carry preamble bytes that some engine put in one
(`Admissible`).

`Faithful` is the per-engine invariant: retained preamble, stored chunks, everything ever submitted to
the transport, and everything in the sink agree with the publication.  Each action keeps it
(`Act.faithful`), and the network-wide invariant is that all nodes are faithful.
-/
import Ethp2p.Engine.Sessions
import Ethp2p.Strategy.Rs.OneShard

namespace Ethp2p

/-! ## The publication -/

/-- A message under its key, with its encoding. -/
structure Publication [Crates] where
  c : ChannelId
  m : MessageId
  payload : Bytes
  config : RsConfig
  preamble : Preamble
  shards : List Bytes
  encoded : encode payload config = .ok (preamble, shards)

/-- The preamble bytes the origin hands to `publish`. -/
def Publication.preambleBytes [Crates] (pub : Publication) : Bytes :=
  Crates.preambleEncode pub.preamble

/-- The strategy runs on this preamble, and every chunk it stores has the announced digest. -/
def Genuine [Crates] (preamble : Preamble) (s : RsStrategy) : Prop :=
  s.preamble = preamble ∧ ∀ i d, s.chunkAt i = some d → preamble.hashes[i]? = some (sha256 d)

section Genuine

variable [Crates] {preamble : Preamble} {s s' : RsStrategy}

theorem Genuine.sameStore (h : Genuine preamble s) (hs : s.SameStore s') : Genuine preamble s' := by
  refine ⟨hs.preamble_eq.trans h.1, fun i d hd => h.2 i d ?_⟩
  rwa [hs.chunkAt_eq] at hd

/-- Only a chunk with the announced digest is stored. -/
theorem Genuine.takeChunk (h : Genuine preamble s) (idx : Nat) (data : Bytes) :
    Genuine preamble (s.takeChunk idx data).2 := by
  unfold RsStrategy.takeChunk
  split
  · exact h
  split
  · exact h
  cases hv : verifyChunk s.preamble idx data with
  | accepted =>
    have hdigest := verifyChunk_accepted hv
    rw [h.1] at hdigest
    refine ⟨h.1, fun i d hd => ?_⟩
    by_cases hi : idx = i
    · subst hi
      simp only [RsStrategy.chunkAt, List.getD_eq_getElem?_getD, List.getElem?_set_self'] at hd
      cases hslot : s.chunks[idx]? with
      | none => simp [hslot] at hd
      | some slot =>
        simp only [hslot, Option.map_eq_map, Option.map_some, Option.getD_some, Function.const_apply,
          Option.some.injEq] at hd
        rw [← hd, hdigest]
    · refine h.2 i d ?_
      simpa only [RsStrategy.chunkAt, List.getD_eq_getElem?_getD, List.getElem?_set_ne hi] using hd
  | redundant | decoding | surplus | invalid | pending => exact h

/-- Every session operation keeps the chunk store genuine. -/
theorem SessionOp.genuine {F : Prop} {s s' : Session RsStrategy} (h : SessionOp F s s')
    (hs : Genuine preamble s.strategy) : Genuine preamble s'.strategy := by
  cases h with
  | attach peer => exact hs.sameStore (s.strategy.attachPeer_sameStore peer)
  | detach peer completed => exact hs.sameStore (s.strategy.detachPeer_sameStore peer completed)
  | poll => exact hs.sameStore s.strategy.poll_sameStore
  | sent peer handle ok => exact hs.sameStore (s.strategy.chunkSent_sameStore peer handle ok)
  | take idx data =>
    have htake := hs.takeChunk idx data
    rw [s.takeChunk_strategy]
    split
    · exact htake
    · exact hs
  | finish => rwa [s.decodeAndFinish_strategy]

/-- A fresh origin strategy is genuine for its encoding. -/
theorem newOrigin_genuine {pub : Publication} {seed : UInt64}
    (h : RsStrategy.newOriginWithSeed pub.payload pub.config seed = .ok s) :
    Genuine pub.preamble s := by
  obtain ⟨k, m, chunkLen, henc⟩ := encode_ok pub.encoded
  simp only [RsStrategy.newOriginWithSeed, pub.encoded, Except.ok.injEq] at h
  subst h
  refine ⟨rfl, fun i d hd => ?_⟩
  simp only [RsStrategy.withParts, RsStrategy.chunkAt, List.getD_eq_getElem?_getD,
    List.getElem?_map] at hd
  rw [henc.hashes, List.getElem?_map]
  cases hshard : pub.shards[i]? with
  | none => simp [hshard] at hd
  | some b =>
    simp only [hshard, Option.map_some, Option.getD_some, Option.some.injEq] at hd
    rw [hd, Option.map_some]

/-- A fresh relay strategy stores nothing. -/
theorem newRelay_genuine {config : RsConfig} {seed : UInt64}
    (h : RsStrategy.newRelayWithSeed preamble config seed = .ok s) : Genuine preamble s := by
  unfold RsStrategy.newRelayWithSeed at h
  split at h
  · cases h
  · cases h
    refine ⟨rfl, fun i d hd => ?_⟩
    simp only [RsStrategy.withParts, RsStrategy.chunkAt, List.getD_eq_getElem?_getD,
      List.getElem?_replicate] at hd
    split at hd <;> simp at hd

/-- What a relay factory builds from preamble bytes is genuine for what they decode to. -/
theorem rsRelayFactory_genuine {config : RsConfig} {seeds : Nat → UInt64} {n : Nat} {b : Bytes}
    (hdecode : Crates.preambleDecode b = .ok preamble)
    (h : ((rsRelayFactory config seeds).build n b).1 = .ok s) : Genuine preamble s := by
  simp only [rsRelayFactory, hdecode] at h
  split at h
  · cases h
  case h_2 s' hnew =>
    cases h
    exact newRelay_genuine hnew

end Genuine

/-! ## Faithful engines -/

namespace Engine

variable [Crates] {pub : Publication}

/-- Everything this engine retains, stores, has submitted and has queued for the published key
agrees with the publication. -/
structure Faithful (pub : Publication) (e : Engine RsStrategy Wire) : Prop where
  retained : ∀ b, e.sessionPreambles[(pub.c, pub.m)]? = some b → b = pub.preambleBytes
  stored : ∀ s, e.session? pub.c pub.m = some s → Genuine pub.preamble s.strategy
  factories : e.RelayFactories
  opens : ∀ sent ∈ e.net.log, ∀ peer b u, sent.msg = .sessionOpen peer pub.c pub.m b u →
    b = pub.preambleBytes
  chunks : ∀ sent ∈ e.net.log, ∀ peer i data token, sent.msg = .chunk peer pub.c pub.m i data token →
    pub.preamble.hashes[i]? = some (sha256 data)
  queued : ∀ d ∈ e.delivered.queue, d.channelId = pub.c → d.messageId = pub.m →
    sha256 d.payload = pub.preamble.hash

/-- What the faithfulness of an engine needs from an input. -/
structure InputFaithful (pub : Publication) (i : Input RsStrategy) : Prop where
  sessionOpen : ∀ peer b u, i = .event (.sessionOpen peer pub.c pub.m b u) → b = pub.preambleBytes
  publish : ∀ strategy b, i = .publish pub.c pub.m strategy b →
    b = pub.preambleBytes ∧ Genuine pub.preamble strategy
  subscribe : HostsRelays i

variable {i : Input RsStrategy} {D : Terms Wire}
  {e e' : Engine RsStrategy Wire}

/-- A submission keeps the engine faithful if it agrees with the publication itself. -/
theorem Faithful.submit (h : Faithful pub e) (msg : NetSend)
    (hopen : ∀ peer b u, msg = .sessionOpen peer pub.c pub.m b u → b = pub.preambleBytes)
    (hchunk : ∀ peer i data token, msg = .chunk peer pub.c pub.m i data token →
      pub.preamble.hashes[i]? = some (sha256 data)) :
    Faithful pub { e with net := (Net.send e.net msg).2 } where
  retained := h.retained
  stored := h.stored
  factories := h.factories
  opens sent hsent peer b u hmsg := by
    rcases List.mem_append.mp hsent with hold | hnew
    · exact h.opens sent hold peer b u hmsg
    · rw [List.mem_singleton.mp hnew] at hmsg
      exact hopen peer b u hmsg
  chunks sent hsent peer i data token hmsg := by
    rcases List.mem_append.mp hsent with hold | hnew
    · exact h.chunks sent hold peer i data token hmsg
    · rw [List.mem_singleton.mp hnew] at hmsg
      exact hchunk peer i data token hmsg
  queued := h.queued

/-- Operations on one session keep the engine faithful. -/
theorem Faithful.modifySession (h : Faithful pub e) (c : ChannelId) (m : MessageId)
    (f : Session RsStrategy → Session RsStrategy)
    (hf : ∀ s, e.session? c m = some s → SessionOps True s (f s)) :
    Faithful pub (e.modifySession c m f) where
  retained := h.retained
  stored s hs := by
    rw [session?_modifySession] at hs
    split at hs
    case isTrue hk =>
      obtain ⟨rfl, rfl⟩ := hk
      obtain ⟨s0, hs0, rfl⟩ := Option.map_eq_some_iff.mp hs
      exact (hf s0 hs0).induct (P := fun s => Genuine pub.preamble s.strategy)
        (fun hop hg => hop.genuine hg) (h.stored s0 hs0)
    case isFalse => exact h.stored s hs
  factories c' build hbuild := by
    rw [build?_eq c' ((DrainFrame.modifySession e f).factory_eq c')] at hbuild
    exact h.factories c' build hbuild
  opens := h.opens
  chunks := h.chunks
  queued := h.queued

theorem DrainStepIf.faithful {P : Session RsStrategy → Prop} {c : ChannelId} {m : MessageId}
    (h : DrainStepIf P c m e e')
    (he : Faithful pub e) : Faithful pub e' := by
  have hnet : ∀ {msg r net}, Net.send e.net msg = (r, net) → net = (Net.send e.net msg).2 :=
    fun hsend => (congrArg Prod.snd hsend).symm
  cases h with
  | @openRefused peer preamble err net hnew hpre hsend =>
    rw [hnet hsend]
    refine he.submit _ (fun peer' b u hmsg => ?_) (fun _ _ _ _ hmsg => by cases hmsg)
    cases hmsg
    exact he.retained _ hpre
  | @opened peer preamble net hnew hpre hsend =>
    rw [hnet hsend]
    -- a `SessionOpen` carries the preamble that is kept for the session
    have hsubmit : Faithful pub
        { e with net := (Net.send e.net (.sessionOpen peer c m preamble [])).2 } := by
      refine he.submit _ (fun peer' b u hmsg => ?_) (fun _ _ _ _ hmsg => by cases hmsg)
      cases hmsg
      exact he.retained _ hpre
    exact ⟨hsubmit.retained, hsubmit.stored, hsubmit.factories, hsubmit.opens, hsubmit.chunks,
      hsubmit.queued⟩
  | @routed peer payload answer net hsend =>
    rw [hnet hsend]
    exact he.submit _ (fun _ _ _ hmsg => by cases hmsg) (fun _ _ _ _ hmsg => by cases hmsg)
  | @polled session hsession =>
    refine he.modifySession c m _ fun s hs => ?_
    obtain rfl := Option.some.inj (hsession.symm.trans hs)
    exact .single (.poll session)
  | @chunkAccepted d net hd hsend =>
    rw [hnet hsend]
    have hsubmit : Faithful pub
        { e with net := (Net.send e.net (.chunk d.peer c m d.chunkId d.payload d.handle)).2 } := by
      refine he.submit _ (fun _ _ _ hmsg => by cases hmsg) (fun peer i data token hmsg => ?_)
      cases hmsg
      -- the chunk is one of the session's, and so a shard of the publication
      obtain ⟨s, hs, hchunk, -⟩ := hd
      exact (he.stored s hs).2 d.chunkId d.payload hchunk
    exact ⟨hsubmit.retained, hsubmit.stored, hsubmit.factories, hsubmit.opens, hsubmit.chunks,
      hsubmit.queued⟩
  | @chunkRefused d err net hd hsend =>
    rw [hnet hsend]
    refine Faithful.modifySession (he.submit _ (fun _ _ _ hmsg => by cases hmsg)
      (fun peer i data token hmsg => ?_)) c m _ fun s _ => .single (.sent s d.peer d.handle false)
    cases hmsg
    obtain ⟨s, hs, hchunk, -⟩ := hd
    exact (he.stored s hs).2 d.chunkId d.payload hchunk

/-- The session of the published key stays genuine. -/
theorem Act.stored (h : Act i D e e') (hi : InputFaithful pub i)
    (hprost : Crates.preambleDecode pub.preambleBytes = .ok pub.preamble) (he : Faithful pub e) :
    ∀ s, e'.session? pub.c pub.m = some s → Genuine pub.preamble s.strategy := by
  have hops : ∀ {F s s'}, SessionOps F s s' → Genuine pub.preamble s.strategy →
      Genuine pub.preamble s'.strategy := fun hops hs =>
    hops.induct (P := fun s => Genuine pub.preamble s.strategy) (fun hop hg => hop.genuine hg) hs
  have hstored := he.stored
  intro s' hs'
  have htrans := h.session pub.c pub.m
  rw [hs'] at htrans
  generalize e.session? pub.c pub.m = o at htrans hstored
  cases htrans with
  | kept => exact hstored s' rfl
  | ops hsops => exact hops hsops (hstored _ rfl)
  | @relay peer preamble update ch strategy factory hinput htomb hch hbuild =>
    obtain ⟨config, seeds, hfactories⟩ := he.factories pub.c ch.factory.build (by simp [build?, hch])
    have hresult : ((rsRelayFactory config seeds).build ch.factory.counter pub.preambleBytes).1
        = .ok strategy := by
      rw [← hfactories, ← hi.sessionOpen peer preamble update hinput]
      exact congrArg Prod.fst hbuild
    exact hops (ch.attachAll_ops (F := True) _) (rsRelayFactory_genuine hprost hresult)
  | @origin strategy preamble ch hinput hch =>
    exact hops (ch.attachAll_ops (F := True) _) (hi.publish strategy preamble hinput).2

/-- A new session keeps the engine faithful if its preamble is the published one. -/
theorem Faithful.withRelay (he : Faithful pub e) {c : ChannelId} {m : MessageId} {preamble : Bytes}
    {ch : Channel RsStrategy}
    (hpre : c = pub.c → m = pub.m → preamble = pub.preambleBytes)
    (hstored : ∀ s, (e.withRelay c m preamble ch).session? pub.c pub.m = some s →
      Genuine pub.preamble s.strategy)
    (hfactories : (e.withRelay c m preamble ch).RelayFactories) :
    Faithful pub (e.withRelay c m preamble ch) := by
  obtain ⟨clock, sessionMeta, hrelay⟩ := e.withRelay_eq c m preamble ch
  rw [hrelay] at hstored hfactories ⊢
  refine ⟨fun b hb => ?_, hstored, hfactories, he.opens, he.chunks, he.queued⟩
  simp only [BTreeMap.get_insert] at hb
  split at hb
  case isTrue hk =>
    obtain ⟨hc, hm⟩ := Prod.mk.inj hk
    exact (Option.some.inj hb).symm.trans (hpre hc hm)
  case isFalse => exact he.retained b hb

/-- **Every action keeps an engine faithful.** -/
theorem Act.faithful (h : Act i D e e') (hi : InputFaithful pub i)
    (hprost : Crates.preambleDecode pub.preambleBytes = .ok pub.preamble) (he : Faithful pub e) :
    Faithful pub e' := by
  have hstored := h.stored hi hprost he
  have hfactories := h.relayFactories hi.subscribe he.factories
  cases h with
  | hosted | greeted | rejected | enrolled | unsubscribed | disconnected | refusedOpen | parked
  | unparked | swept | ticked | scheduled | resolved | detached =>
    exact ⟨he.retained, hstored, hfactories, he.opens, he.chunks, he.queued⟩
  -- what is submitted is of no message
  | @registered peer =>
    have hsubmit := he.submit
      (.handshake peer protocolVersion e.channels.keys e.localPeerStr) (by simp) (by simp)
    exact ⟨he.retained, hstored, hfactories, hsubmit.opens, hsubmit.chunks, he.queued⟩
  | @announced msg hmsg =>
    refine he.submit msg ?_ ?_
    · rintro peer b u rfl
      exact hmsg.elim
    · rintro peer i data token rfl
      exact hmsg.elim
  -- the preamble came with a `SessionOpen` that somebody had submitted
  | @openedRelay peer c m preamble update ch ch' hinput =>
    refine he.withRelay ?_ hstored hfactories
    rintro rfl rfl
    exact hi.sessionOpen peer preamble update hinput
  | @startedOrigin c m strategy preamble ch ch' hinput =>
    refine he.withRelay ?_ hstored hfactories
    rintro rfl rfl
    exact (hi.publish strategy preamble hinput).1
  | ensured hto =>
    exact (ensureSessionOpen_steps e _ _ _ (.inl hto)).induct (fun hstep he => hstep.faithful he) he
  | drained => exact (drainSession_steps e _ _).induct (fun hstep he => hstep.faithful he) he
  | @took c m chunkId payload =>
    rw [takeChunk_eq] at hstored hfactories ⊢
    exact ⟨he.retained, hstored, hfactories, he.opens, he.chunks, he.queued⟩
  | @decoded c m session hdecodes hs =>
    obtain ⟨clock, sessionMeta, delivered, hdecode, hqueue⟩ := e.afterDecode_eq c m session
    rw [hdecode] at hstored hfactories ⊢
    refine ⟨he.retained, hstored, hfactories, he.opens, he.chunks, fun d hd hc hm => ?_⟩
    rcases hqueue d hd with hold | ⟨payload, hpayload, rfl⟩
    · exact he.queued d hold hc hm
    · -- the payload was decoded here, and decoding checks the announced message hash
      subst hc hm
      have hgenuine := he.stored session hs
      rw [← hgenuine.1]
      exact decode_hash (Session.decodeAndFinish_ok hpayload).2.1
  | @disposed c m now =>
    -- the preamble of a session goes with it
    refine ⟨fun b hb => ?_, hstored, hfactories, he.opens, he.chunks, he.queued⟩
    simp only [disposeSession, BTreeMap.get_erase] at hb
    split at hb
    · cases hb
    · exact he.retained b hb
  | received =>
    exact ⟨he.retained, hstored, hfactories, he.opens, he.chunks, fun d hd =>
      he.queued d (List.mem_of_mem_tail hd)⟩

/-- A step on an admissible input keeps an engine faithful. -/
theorem Faithful.step (he : Faithful pub e) (hi : InputFaithful pub i)
    (hprost : Crates.preambleDecode pub.preambleBytes = .ok pub.preamble) :
    Faithful pub (e.step i).2 :=
  (step_acts i e).induct (fun hact he => hact.faithful hi hprost he) he

/-- A fresh engine on an unused transport and an empty sink is faithful. -/
theorem faithful_withConfig (localPeer : PeerId) {net : Wire} {delivered : Sink}
    (config : EngineConfig) (clock : Clock) (hlog : net.log = []) (hqueue : delivered.queue = []) :
    Faithful pub (withConfig localPeer net delivered config clock) := by
  refine ⟨by simp [withConfig], by simp [withConfig, session?],
    by simp [RelayFactories, withConfig, build?], ?_, ?_, ?_⟩
  · simp [withConfig, hlog]
  · simp [withConfig, hlog]
  · simp [withConfig, hqueue]

end Engine

/-! ## The network -/

/-- A network: one engine per node. -/
abbrev Network (ι : Type) := ι → Engine RsStrategy Wire

namespace Network

variable {ι : Type} [DecidableEq ι]

/-- Every node runs a fresh engine on an unused transport and an empty sink. -/
def Fresh (w : Network ι) : Prop :=
  ∀ n, ∃ localPeer net delivered config clock,
    w n = Engine.withConfig localPeer net delivered config clock
      ∧ net.log = [] ∧ delivered.queue = []

omit [DecidableEq ι] in
/-- Some engine submitted this message to its transport. -/
def Submitted (w : Network ι) (msg : NetSend) : Prop := ∃ n, ∃ sent ∈ (w n).net.log, sent.msg = msg

variable [Crates]

/-- The inputs a node may take.  Channels are hosted with a relay factory of this repository;
publishes and `SessionOpen`s of the published key are restricted, everything else is arbitrary. -/
inductive Admissible (pub : Publication) (w : Network ι) : Input RsStrategy → Prop
  | subscribe (c : ChannelId) (config : RsConfig) (seeds : Nat → UInt64) :
      Admissible pub w (.subscribe c (rsRelayFactory config seeds))
  | connect (peer : PeerId) : Admissible pub w (.connect peer)
  /-- The publication: its strategy and its preamble bytes come from the same encoding. -/
  | publish {seed : UInt64} {strategy : RsStrategy}
      (h : RsStrategy.newOriginWithSeed pub.payload pub.config seed = .ok strategy) :
      Admissible pub w (.publish pub.c pub.m strategy pub.preambleBytes)
  | publishOther {c : ChannelId} {m : MessageId} (strategy : RsStrategy) (preamble : Bytes)
      (h : ¬ (c = pub.c ∧ m = pub.m)) : Admissible pub w (.publish c m strategy preamble)
  /-- A `SessionOpen` of the published key is one that some engine sent, from whomever it comes. -/
  | sessionOpen {peer dest : PeerId} {preamble update update' : Bytes}
      (h : w.Submitted (.sessionOpen dest pub.c pub.m preamble update)) :
      Admissible pub w (.event (.sessionOpen peer pub.c pub.m preamble update'))
  /-- Any other event, in particular any `Chunk`. -/
  | event {ev : NetEvent} (h : ∀ peer b u, ev ≠ .sessionOpen peer pub.c pub.m b u) :
      Admissible pub w (.event ev)
  | recv : Admissible pub w .recv

/-- One step of the network: some node takes an admissible input. -/
def Step (pub : Publication) (w w' : Network ι) : Prop :=
  ∃ n i, Admissible pub w i ∧ w' = Function.update w n ((w n).step i).2

/-- The networks reachable from fresh ones. -/
def Reachable (pub : Publication) (w : Network ι) : Prop :=
  ∃ w₀ : Network ι, w₀.Fresh ∧ Relation.ReflTransGen (Step pub) w₀ w

variable {pub : Publication} {w w' : Network ι} {i : Input RsStrategy}

omit [DecidableEq ι] in
/-- What an admissible input brings agrees with the publication, if all that was sent does. -/
theorem Admissible.inputFaithful (h : Admissible pub w i) (hw : ∀ n, (w n).Faithful pub) :
    Engine.InputFaithful pub i := by
  refine ⟨?_, ?_, ?_⟩
  · rintro peer b u rfl
    cases h with
    | sessionOpen hsent =>
      obtain ⟨n, sent, hmem, hmsg⟩ := hsent
      exact (hw n).opens sent hmem _ _ _ hmsg
    | event hother => exact absurd rfl (hother peer b u)
  · rintro strategy b rfl
    cases h with
    | publish hnew => exact ⟨rfl, newOrigin_genuine hnew⟩
    | publishOther _ _ hother => exact absurd ⟨rfl, rfl⟩ hother
  · rintro c factory rfl
    cases h with
    | subscribe _ config seeds => exact ⟨config, seeds, rfl⟩

/-- One step keeps all nodes faithful. -/
theorem Step.faithful (h : Step pub w w')
    (hprost : Crates.preambleDecode pub.preambleBytes = .ok pub.preamble)
    (hw : ∀ n, (w n).Faithful pub) : ∀ n, (w' n).Faithful pub := by
  obtain ⟨k, i, hadm, rfl⟩ := h
  intro n
  by_cases hn : n = k
  · subst hn
    rw [Function.update_self]
    exact (hw n).step (hadm.inputFaithful hw) hprost
  · rw [Function.update_of_ne hn]
    exact hw n

/-- All nodes of a reachable network are faithful. -/
theorem Reachable.faithful (h : Reachable pub w)
    (hprost : Crates.preambleDecode pub.preambleBytes = .ok pub.preamble) :
    ∀ n, (w n).Faithful pub := by
  obtain ⟨w₀, hfresh, hsteps⟩ := h
  induction hsteps with
  | refl =>
    intro n
    obtain ⟨localPeer, net, delivered, config, clock, hn, hlog, hqueue⟩ := hfresh n
    rw [hn]
    exact Engine.faithful_withConfig localPeer config clock hlog hqueue
  | tail _ hstep ih => exact hstep.faithful hprost ih

/-- **Agreement.**  In every reachable network every `SessionOpen` ever submitted for the published
key carries the origin's preamble bytes, every `Chunk` ever submitted for it carries bytes with the
digest the preamble announces at that index, and every message delivered under it is the published
payload. -/
theorem agreement (h : Reachable pub w)
    (hprost : Crates.preambleDecode pub.preambleBytes = .ok pub.preamble)
    (hcoll : Set.InjOn sha256 {b | b = pub.payload ∨ ∃ n, ∃ d ∈ (w n).delivered.queue, d.payload = b}) :
    (∀ n, ∀ sent ∈ (w n).net.log, ∀ peer b u, sent.msg = .sessionOpen peer pub.c pub.m b u →
      b = pub.preambleBytes)
    ∧ (∀ n, ∀ sent ∈ (w n).net.log, ∀ peer i data token,
      sent.msg = .chunk peer pub.c pub.m i data token →
      pub.preamble.hashes[i]? = some (sha256 data))
    ∧ ∀ n, ∀ d ∈ (w n).delivered.queue, d.channelId = pub.c → d.messageId = pub.m →
      d.payload = pub.payload := by
  have hw := h.faithful hprost
  refine ⟨fun n => (hw n).opens, fun n => (hw n).chunks, fun n d hd hc hm => ?_⟩
  obtain ⟨k, m, chunkLen, henc⟩ := encode_ok pub.encoded
  have hdigest := (hw n).queued d hd hc hm
  rw [henc.hash] at hdigest
  exact hcoll (.inr ⟨n, d, hd, rfl⟩) (.inl rfl) hdigest

end Network

/-! ## A small network -/

namespace Network

attribute [local instance] oneShard

/-- The message `01` under the key `("c", "m")`. -/
def onePublication : Publication where
  c := "c"
  m := "m"
  payload := [1]
  config := OneShard.config
  preamble := OneShard.preamble
  shards := [[1], [1]]
  encoded := OneShard.encode_eq

/-- A fresh engine on a transport that accepts everything. -/
def freshNode (peer : PeerId) : Engine RsStrategy Wire :=
  Engine.withConfig peer ⟨fun _ _ => .ok (), []⟩ ⟨8, [], false⟩ {} ⟨fun n => n, 0⟩

/-- The origin (node `true`) publishes to a subscriber; the leaf (node `false`) gets a forged chunk,
the `SessionOpen` and the first shard. -/
def oneExchange : List (Bool × Input RsStrategy) :=
  [(true, .subscribe "c" (rsRelayFactory {} fun _ => 7)),
    (true, .event (.subscribe 1 "c")),
    (true, .publish "c" "m" OneShard.origin onePublication.preambleBytes),
    (false, .subscribe "c" (rsRelayFactory {} fun _ => 7)),
    (false, .event (.chunk 9 "c" "m" 1 [2])),
    (false, .event (.sessionOpen 0 "c" "m" onePublication.preambleBytes [])),
    (false, .event (.chunk 0 "c" "m" 0 [1]))]

/-- The network after the first `n` steps of the exchange. -/
def afterExchange (n : Nat) : Network Bool :=
  (oneExchange.take n).foldl (fun w s => Function.update w s.1 ((w s.1).step s.2).2)
    (fun b => freshNode (if b then 0 else 1))

theorem agreement_oneExchange :
    Reachable onePublication (afterExchange 7)
    ∧ (afterExchange 7 false).delivered.queue = [⟨"c", "m", [1]⟩]
    ∧ ∀ n, ∀ d ∈ (afterExchange 7 n).delivered.queue, d.channelId = "c" → d.messageId = "m" →
      d.payload = [1] := by
  have hfresh : (afterExchange 0).Fresh := fun n => ⟨_, _, _, _, _, rfl, rfl, rfl⟩
  have hstep : ∀ n s, oneExchange[n]? = some s → Admissible onePublication (afterExchange n) s.2 →
      Step onePublication (afterExchange n) (afterExchange (n + 1)) := by
    intro n s hs hadm
    refine ⟨s.1, s.2, hadm, ?_⟩
    simp only [afterExchange, List.take_add_one, hs, List.foldl_append]
    rfl
  have hopen : (afterExchange 5).Submitted
      (.sessionOpen 1 "c" "m" onePublication.preambleBytes []) :=
    ⟨true, List.mem_map.mp (by decide +kernel)⟩
  -- one step after the other, each an admissible input of one of the two engines
  have hreach : Reachable onePublication (afterExchange 7) :=
    ⟨afterExchange 0, hfresh, .trans (.trans (.trans (.trans (.trans (.trans
      (.single (hstep 0 _ rfl (.subscribe _ _ _)))
      (.single (hstep 1 _ rfl (.event (by simp)))))
      (.single (hstep 2 _ rfl (.publish OneShard.newOrigin_eq))))
      (.single (hstep 3 _ rfl (.subscribe _ _ _))))
      (.single (hstep 4 _ rfl (.event (by simp)))))
      (.single (hstep 5 _ rfl (.sessionOpen hopen))))
      (.single (hstep 6 _ rfl (.event (by simp))))⟩
  have hleaf : (afterExchange 7 false).delivered.queue = [⟨"c", "m", [1]⟩] := by decide +kernel
  have horigin : (afterExchange 7 true).delivered.queue = [] := by decide +kernel
  -- nothing but `[1]` is published or delivered, so that its hash collides with nothing
  have hone : ∀ b, (b = onePublication.payload
      ∨ ∃ n, ∃ d ∈ (afterExchange 7 n).delivered.queue, d.payload = b) → b = [1] := by
    rintro b (rfl | ⟨n, d, hd, rfl⟩)
    · rfl
    · cases n with
      | false =>
        rw [hleaf, List.mem_singleton] at hd
        rw [hd]
      | true => simp [horigin] at hd
  refine ⟨hreach, hleaf, (agreement hreach rfl fun a ha b hb _ => ?_).2.2⟩
  rw [hone a ha, hone b hb]

end Network

end Ethp2p
