/-
# Ethp2p.Versions — a peer that speaks another protocol version.

A handshake of another version takes the peer out of the connected set, and does nothing else: the
channels keep it as a subscriber, the sessions keep it attached, and a later `Subscribe` enrols it like
any other peer.  `run_shutOut_iff` says what that leaves: from such a handshake on, and until the peer
is let back in, it is sent nothing EXACTLY when it was subscribed nowhere and none of its `Subscribe`s
finds its channel hosted.

Two one-step facts are behind it: a message goes to a connected peer, to one that registers, or to a
subscriber or attached peer (`Act.sends`); and a peer that is none of these becomes one only by what
lets it in (`Reattached.shuns`, `Act.connected`).
-/
import Ethp2p.Attachments
import Ethp2p.Handshakes
import Ethp2p.Subscriptions

namespace Ethp2p

open Std

/-- The input lets peer `p` in: a registration, or a handshake of our version. -/
def Input.readmits (p : PeerId) : Input RsStrategy → Bool
  | .connect peer | .event (.peerConnected peer) => peer = p
  | .event (.handshake peer version _ _) => peer = p && version = protocolVersion
  | _ => false

/-! ## Who is sent something -/

namespace Engine

section Sends

variable [Crates] {P : Session RsStrategy → Prop} {D : Terms Wire} {i : Input RsStrategy}
  {c : ChannelId} {m : MessageId} {e e' : Engine RsStrategy Wire}

/-- The engine may send something to peer `q`: it is connected, it registers, or some session may be
sent to it. -/
def Addressable (i : Input RsStrategy) (e : Engine RsStrategy Wire) (q : PeerId) : Prop :=
  q ∈ e.connected ∨ i.registers q ∨ ∃ c m, e.Target c m q

/-- A drain gives its session no new target. -/
theorem DrainStepIf.target {q : PeerId} (h : DrainStepIf P c m e e') (hto : e'.Target c m q) :
    e.Target c m q := by
  rcases hto with hsub | ⟨s, hs, hq⟩
  · refine .inl ?_
    rw [mem_subscribersOf] at hsub ⊢
    rwa [← h.frame.subscribers_eq]
  · cases hs₀ : e.session? c m with
    | none =>
      have hnone := h.session_none hs₀
      rw [hs] at hnone
      cases hnone
    | some s₀ =>
      obtain ⟨s', hs', -, -, hatt⟩ := h.session hs₀
      rw [hs] at hs'
      cases hs'
      exact .inr ⟨s₀, hs₀, hatt ▸ hq⟩

/-- A drain submits to the targets of its session. -/
theorem DrainStepsIf.sends (h : DrainStepsIf P c m e e') :
    (∃ new, e'.net.log = e.net.log ++ new ∧ ∀ sent ∈ new, ∀ q ∈ sent.msg.destPeer, e.Target c m q)
      ∧ ∀ q, e'.Target c m q → e.Target c m q := by
  induction h with
  | refl => exact ⟨⟨[], by simp, by simp⟩, fun _ => id⟩
  | @tail e₁ e₂ _ hstep ih =>
    obtain ⟨⟨new, hlog, hnew⟩, hback⟩ := ih
    refine ⟨?_, fun q hq => hback q (hstep.target hq)⟩
    have hadd : ∀ {msg : NetSend} {r : Except NetError Unit} {net : Wire},
        Net.send e₁.net msg = (r, net) → (∀ q ∈ msg.destPeer, e₁.Target c m q) →
        ∃ new, net.log = e.net.log ++ new
          ∧ ∀ sent ∈ new, ∀ q ∈ sent.msg.destPeer, e.Target c m q := by
      intro msg r net hsend hto
      refine ⟨new ++ [⟨msg, r⟩], by rw [log_send hsend, hlog, List.append_assoc], fun sent hsent => ?_⟩
      rcases List.mem_append.mp hsent with hsent | hsent
      · exact hnew sent hsent
      · cases List.mem_singleton.mp hsent
        exact fun q hq => hback q (hto q hq)
    cases hstep with
    | polled => exact ⟨new, hlog, hnew⟩
    | openRefused _ _ hsend hto | opened _ _ hsend hto =>
      exact hadd hsend (by rintro q ⟨rfl⟩; exact hto)
    | routed hsend _ hto => exact hadd hsend (by rintro q ⟨rfl⟩; exact .inl hto)
    | chunkAccepted hd hsend | chunkRefused hd hsend =>
      exact hadd hsend (by rintro q ⟨rfl⟩; exact hd.target)

/-- **What an action submits goes to an addressable peer.** -/
theorem Act.sends (h : Act i D e e') :
    ∃ new, e'.net.log = e.net.log ++ new
      ∧ ∀ sent ∈ new, ∀ q ∈ sent.msg.destPeer, Addressable i e q := by
  -- most effects of an input put nothing on the wire
  have hquiet : ∀ {e' : Engine RsStrategy Wire}, e'.net = e.net →
      ∃ new, e'.net.log = e.net.log ++ new
        ∧ ∀ sent ∈ new, ∀ q ∈ sent.msg.destPeer, Addressable i e q :=
    fun hnet => ⟨[], by simp [hnet], by simp⟩
  -- a drain sends to the peers of its session only
  have hdrain : ∀ {e' : Engine RsStrategy Wire} {c m}, DrainSteps c m e e' →
      ∃ new, e'.net.log = e.net.log ++ new
        ∧ ∀ sent ∈ new, ∀ q ∈ sent.msg.destPeer, Addressable i e q := by
    intro e' c m hsteps
    obtain ⟨⟨new, hlog, hnew⟩, -⟩ := hsteps.sends
    exact ⟨new, hlog, fun sent hsent q hq => .inr (.inr ⟨c, m, hnew sent hsent q hq⟩)⟩
  cases h with
  | hosted | greeted | rejected | enrolled | unsubscribed | disconnected | refusedOpen | parked
  | unparked | resolved | detached | disposed | swept | ticked | scheduled | received =>
    exact hquiet rfl
  | announced hmsg hto =>
    refine ⟨_, log_send (Prod.ext rfl rfl), fun sent hsent q hq => ?_⟩
    cases List.mem_singleton.mp hsent
    exact .inl (hto q hq)
  | registered hi =>
    refine ⟨_, log_send (Prod.ext rfl rfl), fun sent hsent q hq => ?_⟩
    cases List.mem_singleton.mp hsent
    cases hq
    exact .inr (.inl hi)
  | @openedRelay peer c m preamble update ch ch' | @startedOrigin c m strategy preamble ch ch' =>
    obtain ⟨clock, sessionMeta, hrelay⟩ := e.withRelay_eq c m preamble ch'
    exact hquiet (by rw [hrelay])
  | ensured hto => exact hdrain (ensureSessionOpen_steps e _ _ _ (.inl hto))
  | drained => exact hdrain (drainSession_steps e _ _)
  | took =>
    rw [takeChunk_eq]
    exact hquiet rfl
  | @decoded c m session hdecodes hs =>
    refine hquiet ?_
    obtain ⟨clock, sessionMeta, hmark⟩ := markSessionTerminal_frame
      (e.modifySession c m fun _ => session.decodeAndFinish.2) c m
    unfold afterDecode
    rw [hmark]
    cases session.decodeAndFinish.1 <;> rfl

end Sends

end Engine

/-! ## Staying out -/

/-- The ledger knows nothing of peer `p`, and the input enrols it nowhere. -/
structure Ledger.Shuns (p : PeerId) (i : Input RsStrategy) (k : SessionKey) (L : Ledger) : Prop where
  unsubscribed : ¬ L.Subscribed p
  unattached : ¬ L.Attached p
  unhosted : Engine.Announces i p k.1 → L.subscribers = none

/-- A session attaches only peers that it is told of. -/
theorem Ledger.Reattached.shuns {A : Premises} {i : Input RsStrategy} {k : SessionKey} {p : PeerId}
    {L L' : Ledger} (h : L.Reattached A i k p L') (hvalid : A.valid) (hL : L.Shuns p i k) :
    L'.Shuns p i k := by
  -- a peer joins only by announcing a hosted channel, and `p` announces no hosted one
  cases h with
  | kept hlive hatt hsub hhosted =>
    refine ⟨fun h => hL.unsubscribed (hsub.mp h), fun h => hL.unattached (hatt.mp h), fun hi => ?_⟩
    rw [← Option.not_isSome_iff_eq_none]
    intro hsome
    rcases hhosted hsome with hold | ⟨factory, rfl⟩
    · rw [hL.unhosted hi] at hold
      cases hold
    · exact hi.elim
  | joined hi _ hhosted =>
    rw [hL.unhosted hi] at hhosted
    cases hhosted
  | left hi _ hsub hatt =>
    refine ⟨hsub, fun ha => hL.unattached (hatt ha).1, fun hi' => ?_⟩
    rcases hi with rfl | rfl <;> exact hi'.elim
  | created _ _ _ hsubs _ hatt =>
    have hsub : L'.Subscribed p ↔ L.Subscribed p := by
      rw [Ledger.Subscribed, Ledger.Subscribed, hsubs]
    exact ⟨fun h => hL.unsubscribed (hsub.mp h), fun h => hL.unsubscribed ((hatt hvalid).mp h),
      fun hi => hsubs.trans (hL.unhosted hi)⟩
  | done _ _ hsubs hatt =>
    have hsub : L'.Subscribed p ↔ L.Subscribed p := by
      rw [Ledger.Subscribed, Ledger.Subscribed, hsubs]
    exact ⟨fun h => hL.unsubscribed (hsub.mp h), hatt, fun hi => hsubs.trans (hL.unhosted hi)⟩
  | disposed _ hnone hsubs =>
    have hsub : L'.Subscribed p ↔ L.Subscribed p := by
      rw [Ledger.Subscribed, Ledger.Subscribed, hsubs]
    exact ⟨fun h => hL.unsubscribed (hsub.mp h), by simp [Ledger.Attached, hnone],
      fun hi => hsubs.trans (hL.unhosted hi)⟩

namespace Engine

section Steps

variable [Crates] {i : Input RsStrategy} {e e' : Engine RsStrategy Wire} {p : PeerId} {n : Nat}

/-- Peer `p` is no subscriber, attached to no session, and was sent nothing after the first `n`
messages. -/
structure ShutOut (p : PeerId) (n : Nat) (e : Engine RsStrategy Wire) : Prop where
  unsubscribed : ∀ c, p ∉ e.subscribersOf c
  unattached : ∀ c m s, e.session? c m = some s → p ∉ s.strategy.attachedPeers
  unsent : ∀ sent ∈ e.net.log.drop n, sent.msg.destPeer ≠ some p

/-- What one action keeps of a peer that is shut out and not connected. -/
structure Outside (p : PeerId) (i : Input RsStrategy) (n : Nat) (e : Engine RsStrategy Wire) : Prop where
  factories : e.RelayFactories
  unconnected : p ∉ e.connected
  shuns : ∀ k, (e.ledger k).Shuns p i k
  unsent : ∀ sent ∈ e.net.log.drop n, sent.msg.destPeer ≠ some p

omit [Crates] in
/-- A peer that every ledger shuns is no target. -/
theorem not_target (h : ∀ k, (e.ledger k).Shuns p i k) (c : ChannelId) (m : MessageId) :
    ¬ e.Target c m p := by
  rintro (hsub | ⟨s, hs, hp⟩)
  · exact (h (c, m)).unsubscribed (ledger_subscribed.mpr hsub)
  · exact (h (c, m)).unattached ((ledger_attached hs).mpr hp)

omit [Crates] in
theorem readmits_of_marks (h : i.marks p = some true) : i.readmits p := by
  unfold Input.marks at h
  unfold Input.readmits
  split at h <;> simp_all

omit [Crates] in
theorem readmits_of_registers (h : i.registers p) : i.readmits p := by
  unfold Input.registers at h
  unfold Input.readmits
  split at h <;> simp_all

/-- **An action keeps the peer outside**, unless its input lets the peer in. -/
theorem Act.outside (h : Act i (premisedTerms ⟨fun _ => True, True, True, True⟩) e e')
    (hi : i.Valid) (hstranger : ¬ i.readmits p) (he : Outside p i n e) : Outside p i n e' := by
  refine ⟨h.relayFactories (hostsRelays_of_valid hi) he.factories, ?_, fun k => ?_, ?_⟩
  · rcases h.connected p with hsame | ⟨b, hb, hset⟩
    · exact fun hp => he.unconnected (hsame.mp hp)
    · intro hp
      rw [hset.mp hp] at hb
      exact hstranger (readmits_of_marks hb)
  · exact (h.ledger (fun _ => ⟨hi, he.factories⟩) k).induct (Q := fun L => L.Shuns p i k)
      (fun hstep => (hstep.reattached p).shuns trivial) (he.shuns k)
  · obtain ⟨new, hlog, hnew⟩ := h.sends
    intro sent hsent hdest
    rw [hlog, List.drop_append] at hsent
    rcases List.mem_append.mp hsent with hsent | hsent
    · exact he.unsent sent hsent hdest
    · rcases hnew sent (List.mem_of_mem_drop hsent) p hdest with hp | hp | ⟨c, m, hto⟩
      · exact he.unconnected hp
      · exact hstranger (readmits_of_registers hp)
      · exact not_target he.shuns c m hto

/-- **A peer that is outside stays outside**, as long as it is not readmitted. -/
theorem step_outside (hi : i.Valid) (hstranger : ¬ i.readmits p) (he : Outside p i n e) :
    Outside p i n (e.step i).2 :=
  (step_acts_of_drains (D := premisedTerms ⟨fun _ => True, True, True, True⟩) trivial trivial i e
    fun _ _ _ _ _ _ => trivial).induct (fun hact => hact.outside hi hstranger) he

/-- An input that does not let the peer in enrols it only by a `Subscribe` for a hosted channel. -/
theorem Outside.next (h : Outside p .recv n e) (hstranger : ¬ i.readmits p)
    (hunhosted : ∀ c, i = .event (.subscribe p c) → c ∉ e.channels) : Outside p i n e := by
  refine ⟨h.factories, h.unconnected, fun k => ?_, h.unsent⟩
  refine ⟨(h.shuns k).unsubscribed, (h.shuns k).unattached, fun hi => ?_⟩
  unfold Announces at hi
  split at hi
  · obtain ⟨rfl, hversion, -⟩ := hi
    exact absurd (by simp [Input.readmits, hversion]) hstranger
  case h_2 peer channel _ c =>
    obtain ⟨rfl, rfl⟩ := hi
    have hnone : e.channels[k.1]? = none := ExtTreeMap.getElem?_eq_none (hunhosted _ rfl)
    simp [ledger, hnone]
  · exact hi.elim

/-- What is outside in a step is outside after it. -/
theorem Outside.between (h : Outside p i n e) : Outside p .recv n e :=
  ⟨h.factories, h.unconnected, fun k => ⟨(h.shuns k).unsubscribed, (h.shuns k).unattached, False.elim⟩,
    h.unsent⟩

/-- A peer that is outside is shut out. -/
theorem Outside.shutOut (h : Outside p i n e) : ShutOut p n e where
  unsubscribed c hc := (h.shuns (c, "")).unsubscribed (ledger_subscribed.mpr hc)
  unattached c m _ hs hp := (h.shuns (c, m)).unattached ((ledger_attached hs).mpr hp)
  unsent := h.unsent

end Steps

section Runs

variable [Crates]

/-- A handshake of another version is answered by nothing, and takes the peer out of the connected
set. -/
theorem step_mismatch (e : Engine RsStrategy Wire) (p : PeerId) {version : Nat}
    (hversion : version ≠ protocolVersion) (channels : List ChannelId) (peerId : String) :
    (∀ c q, (e.step (.event (.handshake p version channels peerId))).2.subscribed c q
        = e.subscribed c q)
      ∧ p ∉ (e.step (.event (.handshake p version channels peerId))).2.connected := by
  refine ⟨fun c q => ?_, ?_⟩
  · rw [step_subscribed]
    simp [Input.statement, Input.hosts, hversion]
  · rw [step_connected]
    simp [Input.marks, hversion]

/-- **When a peer of another version gets nothing.**  In every run, from a handshake of another
version on and until the peer is let back in, the peer is in no channel, attached to no session and
sent nothing exactly when it subscribed to no channel at the handshake and none of its `Subscribe`s
since is for a hosted channel. -/
theorem run_shutOut_iff (localPeer : PeerId) (net : Wire) (delivered : Sink) (config : EngineConfig)
    (clock : Clock) (pre w : List (Input RsStrategy)) (p : PeerId) (version : Nat)
    (channels : List ChannelId) (peerId : String) (hversion : version ≠ protocolVersion)
    (hvalid : ∀ i ∈ pre ++ w, i.Valid) (hw : ∀ i ∈ w, ¬ i.readmits p) :
    (∀ w', w' <+: w → ShutOut p
        ((withConfig localPeer net delivered config clock).run
          (pre ++ [.event (.handshake p version channels peerId)])).net.log.length
        ((withConfig localPeer net delivered config clock).run
          (pre ++ .event (.handshake p version channels peerId) :: w')))
      ↔ (∀ c, p ∉ ((withConfig localPeer net delivered config clock).run pre).subscribersOf c)
        ∧ ∀ w₁ c w₂, w = w₁ ++ .event (.subscribe p c) :: w₂ →
          c ∉ ((withConfig localPeer net delivered config clock).run
            (pre ++ .event (.handshake p version channels peerId) :: w₁)).channels := by
  obtain ⟨hsame, hout⟩ := step_mismatch ((withConfig localPeer net delivered config clock).run pre) p
    hversion channels peerId
  rw [← run_concat] at hsame hout
  have hinputs : ∀ w', w' <+: w →
      ∀ i ∈ pre ++ .event (.handshake p version channels peerId) :: w', i.Valid := by
    intro w' hw' i hi
    rcases List.mem_append.mp hi with hi | hi
    · exact hvalid i (List.mem_append_left _ hi)
    · rcases List.mem_cons.mp hi with rfl | hi
      · trivial
      · exact hvalid i (List.mem_append_right _ (hw'.subset hi))
  -- either failure is a subscriber left over, or one that a `Subscribe` brings back
  constructor
  · intro h
    refine ⟨fun c hc => ?_, ?_⟩
    · refine (h [] (List.nil_prefix)).unsubscribed c ?_
      rw [mem_subscribersOf_iff] at hc ⊢
      rw [hsame]
      exact hc
    · rintro w₁ c w₂ rfl hhosted
      have hshut := h (w₁ ++ [.event (.subscribe p c)]) ⟨w₂, by simp⟩
      refine hshut.unsubscribed c ?_
      obtain ⟨ch, hch⟩ := (BTreeMap.mem_iff_get _ _).mp hhosted
      rw [← List.cons_append, ← List.append_assoc, run_concat, mem_subscribersOf_iff, step_subscribed]
      simp [Input.statement, subscribed, hch]
  · rintro ⟨hunsubscribed, hunhosted⟩ w' hw'
    suffices houtside : Outside p .recv ((withConfig localPeer net delivered config clock).run
        (pre ++ [.event (.handshake p version channels peerId)])).net.log.length
        ((withConfig localPeer net delivered config clock).run
          (pre ++ .event (.handshake p version channels peerId) :: w')) from houtside.shutOut
    -- one input after the other: the mismatched peer stays outside, unless it subscribes
    induction w' using List.reverseRecOn with
    | nil =>
      have hright := run_attachedRight localPeer net delivered config clock (hinputs [] hw')
      have hnot : ∀ c m, ¬ (((withConfig localPeer net delivered config clock).run
          (pre ++ [.event (.handshake p version channels peerId)])).ledger (c, m)).Subscribed p := by
        intro c m hsub
        refine hunsubscribed c ?_
        rw [ledger_subscribed, mem_subscribersOf_iff, hsame] at hsub
        exact mem_subscribersOf_iff.mpr hsub
      refine ⟨?_, hout, fun k => ⟨hnot k.1 k.2, fun hp => ?_, False.elim⟩, by simp⟩
      · exact run_induct (P := RelayFactories) (fun e i hi he => he.step (hinputs [] hw' i hi))
          (relayFactories_withConfig localPeer net delivered config clock)
      · exact hnot k.1 k.2 (hright.subscribed hp)
    | append_singleton w' j ih =>
      have hpre : w' <+: w := (List.prefix_append w' [j]).trans hw'
      have hj : j ∈ w := hw'.subset (by simp)
      have hrun : (withConfig localPeer net delivered config clock).run
          (pre ++ .event (.handshake p version channels peerId) :: (w' ++ [j]))
          = (((withConfig localPeer net delivered config clock).run
            (pre ++ .event (.handshake p version channels peerId) :: w')).step j).2 := by
        rw [← List.cons_append, ← List.append_assoc, run_concat]
      rw [hrun]
      refine (step_outside (hvalid j (List.mem_append_right _ hj)) (hw j hj)
        ((ih hpre).next (hw j hj) ?_)).between
      rintro c rfl
      obtain ⟨rest, hrest⟩ := hw'
      exact hunhosted w' c rest (by rw [← hrest]; simp)

end Runs

section OneShard

attribute [local instance] oneShard

/-- The node hosts the channel and publishes a message. -/
def publishAlone : List (Input RsStrategy) :=
  [.subscribe "c" (rsRelayFactory {} fun _ => 7),
    .publish "c" "m" OneShard.origin (OneShard.preambleBytes OneShard.preamble)]

theorem publishAlone_valid : ∀ i ∈ publishAlone, i.Valid := by
  simp only [publishAlone, List.mem_cons, List.not_mem_nil, or_false]
  rintro i (rfl | rfl)
  · exact ⟨_, _, rfl⟩
  · exact ⟨_, _, _, OneShard.newOrigin_eq⟩

/-- A peer of version 2 subscribes to a channel that is not hosted, and gets nothing. -/
theorem run_shutOut_unhosted :
    (∀ i ∈ [Input.event (.subscribe 1 "d")], ¬ Input.readmits 1 i)
    ∧ ∀ w', w' <+: [Input.event (.subscribe 1 "d")] → ShutOut 1
      ((nodeTicking second).run (publishAlone ++ [.event (.handshake 1 2 [] "")])).net.log.length
      ((nodeTicking second).run (publishAlone ++ .event (.handshake 1 2 [] "") :: w')) := by
  have hstranger : ∀ i ∈ [Input.event (.subscribe 1 "d")], ¬ Input.readmits 1 i := by decide
  refine ⟨hstranger, (run_shutOut_iff 0 ⟨fun _ _ => .ok (), []⟩ ⟨8, [], false⟩ {}
    ⟨fun n => n * second, 0⟩ publishAlone [.event (.subscribe 1 "d")] 1 2 [] "" (by decide) ?_
    hstranger).mpr ⟨fun c hc => ?_, fun w₁ c w₂ heq => ?_⟩⟩
  · intro i hi
    rcases List.mem_append.mp hi with hi | hi
    · exact publishAlone_valid i hi
    · cases List.mem_singleton.mp hi
      trivial
  · have hnone : (((nodeTicking second).run publishAlone).channels.toList.all
        fun entry => !decide (1 ∈ entry.2.subscribers)) = true := by decide +kernel
    obtain ⟨subs, hsubs, hp⟩ := (Option.any_eq_true _ _).mp (mem_subscribersOf.mp hc)
    obtain ⟨ch, hch, rfl⟩ := Option.map_eq_some_iff.mp hsubs
    have hout := List.all_eq_true.mp hnone (c, ch) (ExtTreeMap.mem_toList_iff_getElem?_eq_some.mpr hch)
    rw [hp] at hout
    cases hout
  · have hunhosted : "d" ∉ ((nodeTicking second).run
        (publishAlone ++ [.event (.handshake 1 2 [] "")])).channels := by decide +kernel
    rcases w₁ with _ | ⟨_, w₁⟩
    · simp only [List.nil_append, List.cons.injEq, Input.event.injEq, NetEvent.subscribe.injEq,
        true_and] at heq
      rw [← heq.1]
      exact hunhosted
    · simp at heq

/-- A peer of version 2 that subscribed before its handshake, or that subscribes after it, is sent the
open and the chunks of a published message. -/
theorem run_not_shutOut :
    ¬ ShutOut 1
        ((nodeTicking second).run [.subscribe "c" (rsRelayFactory {} fun _ => 7),
          .event (.subscribe 1 "c"), .event (.handshake 1 2 [] "")]).net.log.length
        ((nodeTicking second).run [.subscribe "c" (rsRelayFactory {} fun _ => 7),
          .event (.subscribe 1 "c"), .event (.handshake 1 2 [] ""),
          .publish "c" "m" OneShard.origin (OneShard.preambleBytes OneShard.preamble)])
    ∧ ¬ ShutOut 1
        ((nodeTicking second).run (publishAlone ++ [.event (.handshake 1 2 [] "")])).net.log.length
        ((nodeTicking second).run (publishAlone ++ [.event (.handshake 1 2 [] ""),
          .event (.subscribe 1 "c")])) := by
  refine ⟨fun h => ?_, fun h => ?_⟩
  · have hsent : (((nodeTicking second).run [.subscribe "c" (rsRelayFactory {} fun _ => 7),
        .event (.subscribe 1 "c"), .event (.handshake 1 2 [] ""),
        .publish "c" "m" OneShard.origin (OneShard.preambleBytes OneShard.preamble)]).net.log.drop
        ((nodeTicking second).run [.subscribe "c" (rsRelayFactory {} fun _ => 7),
          .event (.subscribe 1 "c"), .event (.handshake 1 2 [] "")]).net.log.length).any
        (·.msg.destPeer = some 1) = true := by decide +kernel
    obtain ⟨sent, hmem, hdest⟩ := List.any_eq_true.mp hsent
    exact h.unsent sent hmem (of_decide_eq_true hdest)
  · have hsent : (((nodeTicking second).run (publishAlone ++ [.event (.handshake 1 2 [] ""),
        .event (.subscribe 1 "c")])).net.log.drop ((nodeTicking second).run
          (publishAlone ++ [.event (.handshake 1 2 [] "")])).net.log.length).any
        (·.msg.destPeer = some 1) = true := by decide +kernel
    obtain ⟨sent, hmem, hdest⟩ := List.any_eq_true.mp hsent
    exact h.unsent sent hmem (of_decide_eq_true hdest)

end OneShard

end Engine

end Ethp2p
