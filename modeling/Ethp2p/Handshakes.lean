/-
# Ethp2p.Handshakes — when the engine has introduced itself.

`register_peer_and_handshake` sends the handshake only to a peer that is not in `connected` yet, so
that set doubles as "already introduced".  Two other paths write it: an inbound handshake inserts its
sender, and a refused send leaves the mark behind.  A peer marked that way stands SILENT: the next
`connect` finds the mark, sends nothing and answers `Ok`.

`Standing` follows one peer through a run, and `run_announced_iff` says that a registration that
succeeds has its handshake accepted since the peer's last disconnect exactly when the peer did not
stand silent.
-/
import Ethp2p.Engine.Sessions
import Ethp2p.Strategy.Rs.OneShard

namespace Ethp2p

open Std

/-- The message is a handshake to peer `p`. -/
def NetSend.isHandshakeTo (p : PeerId) : NetSend → Bool
  | .handshake peer .. => peer = p
  | _ => false

namespace Input

/-- The input is the loss of the connection to peer `p`. -/
def disconnects (p : PeerId) : Input RsStrategy → Bool
  | .event (.peerDisconnected peer) => peer = p
  | _ => false

/-- What the input makes of peer `p`: connected, not connected, or nothing. -/
def marks (p : PeerId) : Input RsStrategy → Option Bool
  | .connect peer | .event (.peerConnected peer) => if peer = p then some true else none
  | .event (.handshake peer version _ _) =>
    if peer = p then some (version = protocolVersion) else none
  | .event (.peerDisconnected peer) => if peer = p then some false else none
  | _ => none

end Input

namespace Engine

/-! ## The standing of a peer -/

/-- How a peer stands with the engine since its last disconnect. -/
inductive Standing where
  /-- It is not marked connected. -/
  | stranger
  /-- It is marked connected, and no handshake to it was accepted. -/
  | silent
  /-- A handshake to it was accepted. -/
  | greeted
deriving DecidableEq, Repr

/-- The handshake the engine sends to peer `p`. -/
def handshakeTo {N : Type} (e : Engine RsStrategy N) (p : PeerId) : NetSend :=
  .handshake p protocolVersion e.channels.keys e.localPeerStr

/-- The transport accepts a handshake to peer `p`. -/
def acceptsHandshake (e : Engine RsStrategy Wire) (p : PeerId) : Bool :=
  (e.net.answer e.net.log (e.handshakeTo p)).isOk

/-- The standing of peer `p` after the input. -/
def Standing.next (p : PeerId) (e : Engine RsStrategy Wire) (st : Standing) :
    Input RsStrategy → Standing
  | .connect peer | .event (.peerConnected peer) =>
    if peer = p ∧ p ∉ e.connected then
      if e.acceptsHandshake p ∨ st = .greeted then .greeted else .silent
    else
      st
  | .event (.handshake peer version _ _) =>
    if peer = p ∧ st ≠ .greeted then
      if version = protocolVersion then .silent else .stranger
    else
      st
  | .event (.peerDisconnected peer) => if peer = p then .stranger else st
  | _ => st

section Runs

variable [Crates]

/-- The standing of peer `p` after a run. -/
def standing (p : PeerId) (e : Engine RsStrategy Wire) (inputs : List (Input RsStrategy)) :
    Standing :=
  (inputs.foldl (fun st i => ((st.1.step i).2, st.2.next p st.1 i)) (e, Standing.stranger)).2

/-- The standing of a peer after one more input. -/
theorem standing_concat (p : PeerId) (e : Engine RsStrategy Wire)
    (inputs : List (Input RsStrategy)) (i : Input RsStrategy) :
    standing p e (inputs ++ [i]) = (standing p e inputs).next p (e.run inputs) i := by
  have hrun : ∀ (inputs : List (Input RsStrategy)) (e : Engine RsStrategy Wire) (st : Standing),
      (inputs.foldl (fun st i => ((st.1.step i).2, st.2.next p st.1 i)) (e, st)).1
        = e.run inputs := by
    intro inputs
    induction inputs with
    | nil => exact fun e st => rfl
    | cons i inputs ih => exact fun e st => ih _ _
  simp only [standing, List.foldl_append, List.foldl_cons, List.foldl_nil, hrun]

/-- A handshake to peer `p` was accepted in the run, after the last disconnect of `p`. -/
def Announced (p : PeerId) (e : Engine RsStrategy Wire) (inputs : List (Input RsStrategy)) : Prop :=
  ∃ sent ∈ (e.run inputs).net.log.drop
      (e.run (inputs.rdropWhile (!Input.disconnects p ·))).net.log.length,
    sent.msg.isHandshakeTo p ∧ sent.accepted

instance (p : PeerId) (e : Engine RsStrategy Wire) (inputs : List (Input RsStrategy)) :
    Decidable (Announced p e inputs) :=
  inferInstanceAs (Decidable (∃ sent ∈ (e.run inputs).net.log.drop
      (e.run (inputs.rdropWhile (!Input.disconnects p ·))).net.log.length,
    sent.msg.isHandshakeTo p ∧ sent.accepted))

/-- The input registers peer `p` with success: a `connect` that answers `Ok`, or a `PeerConnected`
all of whose sends are accepted. -/
def Registered (p : PeerId) (e : Engine RsStrategy Wire) : Input RsStrategy → Prop
  | .connect peer => peer = p ∧ (e.connect peer).1 = .ok ()
  | .event (.peerConnected peer) => peer = p
    ∧ ∀ sent ∈ (e.runOneStep (.peerConnected peer)).net.log.drop e.net.log.length, sent.accepted
  | _ => False

/-! ## What a step submits -/

section Log

variable {i : Input RsStrategy} {D : Terms Wire}
  {e e' : Engine RsStrategy Wire} {p : PeerId}

/-- What was submitted from `e` to `e'` satisfies `P`. -/
def Submits (P : NetSend → Prop) (e e' : Engine RsStrategy Wire) : Prop :=
  ∃ sent, e'.net.log = e.net.log ++ sent ∧ ∀ s ∈ sent, P s.msg

omit [Crates] in
theorem Submits.refl {P : NetSend → Prop} (h : e'.net = e.net) : Submits P e e' :=
  ⟨[], by simp [h], by simp⟩

omit [Crates] in
theorem Submits.trans {P : NetSend → Prop} {e'' : Engine RsStrategy Wire} (h : Submits P e e')
    (h' : Submits P e' e'') : Submits P e e'' := by
  obtain ⟨sent, hlog, hsent⟩ := h
  obtain ⟨sent', hlog', hsent'⟩ := h'
  refine ⟨sent ++ sent', by rw [hlog', hlog, List.append_assoc], fun s hs => ?_⟩
  exact (List.mem_append.mp hs).elim (hsent s) (hsent' s)

omit [Crates] in
theorem Submits.single {P : NetSend → Prop} {msg : NetSend} (hmsg : P msg)
    (h : e'.net = (Net.send e.net msg).2) : Submits P e e' :=
  ⟨[⟨msg, e.net.answer e.net.log msg⟩], by rw [h]; rfl, by simpa using hmsg⟩

/-- A drain submits no handshake. -/
theorem DrainStepsIf.submits {P : Session RsStrategy → Prop} {c : ChannelId} {m : MessageId}
    (h : DrainStepsIf P c m e e') :
    Submits (¬ ·.isHandshakeTo p) e e' := by
  induction h with
  | refl => exact .refl rfl
  | tail _ hstep ih =>
    refine ih.trans ?_
    cases hstep with
    | polled => exact .refl rfl
    | openRefused _ _ hsend | opened _ _ hsend | routed hsend | chunkAccepted _ hsend
    | chunkRefused _ hsend =>
      exact .single (by simp [NetSend.isHandshakeTo]) (congrArg Prod.snd hsend).symm

/-- Only a registration of `p` submits a handshake to `p`. -/
theorem Act.submits (h : Act i D e e') (hi : ¬ i.registers p) :
    Submits (¬ ·.isHandshakeTo p) e e' := by
  cases h with
  | hosted | greeted | rejected | enrolled | unsubscribed | disconnected | refusedOpen | parked
  | unparked | resolved | detached | disposed | swept | ticked | scheduled | received =>
    exact .refl rfl
  | @announced msg hmsg =>
    refine .single ?_ rfl
    cases msg <;> first | exact hmsg.elim | simp [NetSend.isHandshakeTo]
  | @registered peer hpeer =>
    refine .single ?_ rfl
    simp only [NetSend.isHandshakeTo, decide_eq_true_eq]
    rintro rfl
    exact hi hpeer
  | openedRelay | startedOrigin =>
    refine .refl ?_
    obtain ⟨clock, sessionMeta, hrelay⟩ := withRelay_eq e _ _ _ _
    rw [hrelay]
  | ensured hto => exact (ensureSessionOpen_steps e _ _ _ (.inl hto)).submits
  | drained => exact (drainSession_steps e _ _).submits
  | took =>
    rw [takeChunk_eq]
    exact .refl rfl
  | @decoded c m session =>
    obtain ⟨clock, sessionMeta, delivered, hdecode, -⟩ := e.afterDecode_eq c m session
    rw [hdecode]
    exact .refl rfl

/-- Only an input that registers a peer submits a handshake to it. -/
theorem Acts.submits (h : Acts i D e e') (hi : ¬ i.registers p) :
    Submits (¬ ·.isHandshakeTo p) e e' :=
  h.induct (fun hact hsubmits => hsubmits.trans (hact.submits hi)) (.refl rfl)

/-! ## Who is connected -/

/-- **What one action does to the connected set**: nothing to `p`, unless the input marks `p`. -/
theorem Act.connected (h : Act i D e e') (p : PeerId) :
    (p ∈ e'.connected ↔ p ∈ e.connected)
      ∨ ∃ b, i.marks p = some b ∧ (p ∈ e'.connected ↔ b = true) := by
  cases h with
  | hosted | announced | enrolled | unsubscribed | refusedOpen | parked | unparked | resolved
  | detached | disposed | swept | ticked | scheduled | received => exact .inl .rfl
  -- the four actions that change who is connected are those whose input marks a peer
  | @registered peer hpeer =>
    by_cases hp : peer = p
    · refine .inr ⟨true, ?_, by simp [hp]⟩
      unfold Input.registers at hpeer
      split at hpeer <;> simp_all [Input.marks]
    · exact .inl (by simp [hp])
  | @greeted peer channels peerId hi =>
    by_cases hp : peer = p
    · exact .inr ⟨true, by simp [hi, Input.marks, hp], by simp [hp]⟩
    · exact .inl (by simp [hp])
  | @rejected peer version channels peerId hi hversion =>
    by_cases hp : peer = p
    · exact .inr ⟨false, by simp [hi, Input.marks, hp, hversion],
        by simp [hp]⟩
    · exact .inl (by simp [hp])
  | @disconnected peer hi =>
    by_cases hp : peer = p
    · exact .inr ⟨false, by simp [hi, Input.marks, hp],
        by simp [handlePeerDisconnected, hp]⟩
    · exact .inl (by simp [handlePeerDisconnected, hp])
  -- the others send, or work on sessions
  | openedRelay | startedOrigin =>
    obtain ⟨clock, sessionMeta, hrelay⟩ := withRelay_eq e _ _ _ _
    rw [hrelay]
    exact .inl .rfl
  | ensured hto =>
    rw [(ensureSessionOpen_steps e _ _ _ (.inl hto)).frame.connected_eq]
    exact .inl .rfl
  | drained =>
    rw [(drainSession_steps e _ _).frame.connected_eq]
    exact .inl .rfl
  | took =>
    rw [takeChunk_eq]
    exact .inl .rfl
  | @decoded c m session =>
    obtain ⟨clock, sessionMeta, delivered, hdecode, -⟩ := e.afterDecode_eq c m session
    rw [hdecode]
    exact .inl .rfl

/-- A mark that was made stays made for the rest of its step. -/
theorem Acts.marked {b : Bool} (h : Acts i D e e') (hi : i.marks p = some b)
    (he : p ∈ e.connected ↔ b = true) : p ∈ e'.connected ↔ b = true := by
  refine h.induct (P := fun e => p ∈ e.connected ↔ b = true) (fun hact he => ?_) he
  rcases hact.connected p with hsame | ⟨b', hb', hset⟩
  · rw [hsame, he]
  · obtain rfl := Option.some.inj (hb'.symm.trans hi)
    exact hset

/-- An input that does not mark `p` leaves it connected or not, as it was. -/
theorem Acts.connected_iff (h : Acts i D e e') (hi : i.marks p = none) :
    p ∈ e'.connected ↔ p ∈ e.connected := by
  refine h.induct (P := fun e' => p ∈ e'.connected ↔ p ∈ e.connected) (fun hact he => ?_) .rfl
  rcases hact.connected p with hsame | ⟨b, hb, -⟩
  · rw [hsame, he]
  · rw [hi] at hb
    cases hb

omit [Crates] in
/-- A peer that is registered is connected, whatever becomes of its handshake. -/
theorem registerPeerAndHandshake_connected (e : Engine RsStrategy Wire) (p : PeerId) :
    p ∈ (e.registerPeerAndHandshake p).2.connected := by
  unfold registerPeerAndHandshake
  split
  case isTrue hp => exact hp
  case isFalse =>
    rw [send_eq]
    simp

/-- Who is connected after a step. -/
theorem step_connected (e : Engine RsStrategy Wire) (i : Input RsStrategy) (p : PeerId) :
    p ∈ (e.step i).2.connected ↔ ((i.marks p).getD (p ∈ e.connected)) = true := by
  cases hmark : i.marks p with
  | none => simpa using (step_acts i e).connected_iff hmark
  | some b =>
    have hmarked := hmark
    -- the state in which the mark has been made; the rest of the step keeps it
    suffices ∃ e1, Acts i Terms.any e1 (e.step i).2 ∧ (p ∈ e1.connected ↔ b = true) by
      obtain ⟨e1, hacts, he1⟩ := this
      exact hacts.marked hmark he1
    cases i with
    | subscribe | publish | recv => cases hmark
    | connect peer =>
      simp only [Input.marks, ite_eq_iff, Option.some.injEq, reduceCtorEq, and_false,
        or_false] at hmarked
      obtain ⟨rfl, rfl⟩ := hmarked
      exact ⟨_, .refl, by simp [step, connect, registerPeerAndHandshake_connected]⟩
    | event ev =>
      have hsweep := fun e => maybeRunCleanup_acts (i := .event ev) (D := Terms.any (N := Wire))
        trivial e
      cases ev with
      | subscribe | unsubscribe | sessionOpen | routingUpdate | chunk | chunkSendResult
      | peerReconstructed | sessionClosed => cases hmark
      | peerConnected peer =>
        simp only [Input.marks, ite_eq_iff, Option.some.injEq, reduceCtorEq, and_false,
          or_false] at hmarked
        obtain ⟨rfl, rfl⟩ := hmarked
        exact ⟨_, hsweep _, by simp [handleEvent, registerPeerAndHandshake_connected]⟩
      | peerDisconnected peer =>
        simp only [Input.marks, ite_eq_iff, Option.some.injEq, reduceCtorEq, and_false,
          or_false] at hmarked
        obtain ⟨rfl, rfl⟩ := hmarked
        exact ⟨_, hsweep _, by simp [handleEvent, handlePeerDisconnected]⟩
      | handshake peer version channels peerId =>
        simp only [Input.marks, ite_eq_iff, Option.some.injEq, reduceCtorEq, and_false,
          or_false] at hmarked
        obtain ⟨rfl, rfl⟩ := hmarked
        by_cases hversion : version = protocolVersion
        · have henrol := enrolEach_acts (i := .event (.handshake peer version channels peerId))
            (D := Terms.any) peer channels { e with connected := e.connected.insert peer }
            (fun c hc => ⟨rfl, hversion, hc⟩) fun _ _ => trivial
          refine ⟨{ e with connected := e.connected.insert peer }, henrol.trans ?_, by
            simp [hversion]⟩
          have hafter := hsweep (e.handleEvent (.handshake peer version channels peerId))
          simp only [handleEvent, if_pos hversion] at hafter
          simpa only [step, runOneStep, handleEvent, if_pos hversion] using hafter
        · refine ⟨_, hsweep _, ?_⟩
          simp [handleEvent, hversion]

/-! ## What a step submits to one peer -/

omit [Crates] in
/-- A registration submits the handshake, to a peer that is not connected yet, and nothing else. -/
theorem registerPeerAndHandshake_net (e : Engine RsStrategy Wire) (p : PeerId) :
    (e.registerPeerAndHandshake p).2.net.log = e.net.log
      ++ if p ∈ e.connected then [] else
        [⟨e.handshakeTo p, e.net.answer e.net.log (e.handshakeTo p)⟩] := by
  unfold registerPeerAndHandshake
  split
  · simp
  · rw [send_eq]
    rfl

/-- What a registration submits is the handshake, if anything. -/
theorem step_registers_log (e : Engine RsStrategy Wire) (hi : i.registers p) :
    (e.step i).2.net.log = (e.registerPeerAndHandshake p).2.net.log := by
  unfold Input.registers at hi
  split at hi
  · obtain rfl := of_decide_eq_true hi
    rfl
  · obtain rfl := of_decide_eq_true hi
    simp only [step, runOneStep, (maybeRunCleanup_frame _).1, handleEvent]
  · cases hi

/-- The handshakes to `p` in a step: one, to a peer that is registered and not connected yet. -/
theorem step_handshake (e : Engine RsStrategy Wire) (i : Input RsStrategy) (p : PeerId) :
    ∃ sent, (e.step i).2.net.log = e.net.log ++ sent
      ∧ ((∃ s ∈ sent, s.msg.isHandshakeTo p ∧ s.accepted)
        ↔ i.registers p ∧ p ∉ e.connected ∧ e.acceptsHandshake p) := by
  by_cases hi : i.registers p
  · refine ⟨_, (step_registers_log e hi).trans (registerPeerAndHandshake_net e p), ?_⟩
    split
    case isTrue hp => simp [hp]
    case isFalse hp =>
      simp [hi, hp, handshakeTo, NetSend.isHandshakeTo, Sent.accepted, acceptsHandshake]
  · obtain ⟨sent, hlog, hsent⟩ := (step_acts i e).submits hi
    refine ⟨sent, hlog, ?_⟩
    constructor
    · rintro ⟨s, hs, hto, -⟩
      exact absurd hto (hsent s hs)
    · exact fun h => absurd h.1 hi

/-! ## Runs -/

/-- A longer run has a longer log. -/
theorem run_log_extends (e : Engine RsStrategy Wire) {pre inputs : List (Input RsStrategy)}
    (h : pre <+: inputs) : (e.run pre).net.log <+: (e.run inputs).net.log := by
  obtain ⟨rest, rfl⟩ := h
  induction rest using List.reverseRecOn with
  | nil => simp
  | append_singleton rest i ih =>
    rw [← List.append_assoc, run_concat]
    obtain ⟨sent, hlog, -⟩ := step_handshake (e.run (pre ++ rest)) i 0
    exact ih.trans ⟨sent, hlog.symm⟩

/-- A handshake counts until the next disconnect. -/
theorem announced_concat (p : PeerId) (e : Engine RsStrategy Wire)
    (inputs : List (Input RsStrategy)) (i : Input RsStrategy) :
    Announced p e (inputs ++ [i]) ↔ ¬ i.disconnects p ∧ (Announced p e inputs
      ∨ i.registers p ∧ p ∉ (e.run inputs).connected ∧ (e.run inputs).acceptsHandshake p) := by
  obtain ⟨sent, hlog, hsent⟩ := step_handshake (e.run inputs) i p
  unfold Announced
  rw [List.rdropWhile_concat]
  by_cases hi : i.disconnects p
  · simp [hi]
  · have hle : (e.run (inputs.rdropWhile (!Input.disconnects p ·))).net.log.length
        ≤ (e.run inputs).net.log.length :=
      (run_log_extends e (List.rdropWhile_prefix _ _)).length_le
    rw [if_pos (by simp [hi]), run_concat, hlog, List.drop_append_of_le_length hle]
    simp only [List.mem_append, or_and_right, exists_or, hsent, hi, Bool.false_eq_true,
      not_false_eq_true, true_and]

end Log

/-- The standing of a peer is what it says. -/
structure StandingSound (p : PeerId) (e : Engine RsStrategy Wire)
    (inputs : List (Input RsStrategy)) : Prop where
  stranger : standing p e inputs = .stranger → p ∉ (e.run inputs).connected
  silent : standing p e inputs = .silent → p ∈ (e.run inputs).connected
  greeted : standing p e inputs = .greeted ↔ Announced p e inputs

/-- Every input keeps the standing sound. -/
theorem StandingSound.concat {p : PeerId} {e : Engine RsStrategy Wire}
    {inputs : List (Input RsStrategy)} (h : StandingSound p e inputs) (i : Input RsStrategy) :
    StandingSound p e (inputs ++ [i]) := by
  obtain ⟨hstranger, hsilent, hgreeted⟩ := h
  have hst := standing_concat p e inputs i
  have hconn := step_connected (e.run inputs) i p
  have hann := announced_concat p e inputs i
  rw [← hgreeted] at hann
  rw [← run_concat] at hconn
  generalize standing p e inputs = st at *
  -- what is left is a finite table: which inputs concern `p`, and how `p` stood before
  constructor
  all_goals
    cases i with
    | subscribe | publish | recv | connect =>
      simp only [Standing.next, Input.marks, Input.registers, Input.disconnects] at hst hconn hann
      grind
    | event ev =>
      cases ev <;>
        simp only [Standing.next, Input.marks, Input.registers, Input.disconnects] at hst hconn hann
        <;> grind

/-- The standing says of every run who is connected. -/
theorem standingSound_run (localPeer : PeerId) (net : Wire) (delivered : Sink)
    (config : EngineConfig) (clock : Clock) (inputs : List (Input RsStrategy)) (p : PeerId) :
    StandingSound p (withConfig localPeer net delivered config clock) inputs := by
  induction inputs using List.reverseRecOn with
  | nil => exact ⟨fun _ => by simp [run, withConfig], fun h => (by cases h), by
      simp [standing, Announced, run]⟩
  | append_singleton inputs i ih => exact ih.concat i

omit [Crates] in
/-- A registration of a peer not connected yet answers what the transport answers. -/
theorem connect_eq_ok {e : Engine RsStrategy Wire} {p : PeerId} (hp : p ∉ e.connected)
    (h : (e.connect p).1 = .ok ()) : e.acceptsHandshake p := by
  unfold connect registerPeerAndHandshake at h
  rw [if_neg hp, send_eq] at h
  unfold acceptsHandshake handshakeTo
  simp only [Net.send] at h
  cases hans : e.net.answer e.net.log
      (.handshake p protocolVersion e.channels.keys e.localPeerStr) with
  | error err => simp [hans, Except.mapError] at h
  | ok _ => rfl

theorem Registered.registers {e : Engine RsStrategy Wire} {p : PeerId} {i : Input RsStrategy}
    (h : Registered p e i) : i.registers p := by
  unfold Registered at h
  split at h
  · simp [Input.registers, h.1]
  · simp [Input.registers, h.1]
  · exact h.elim

/-- A registration that succeeded for a peer that was not connected had its handshake accepted. -/
theorem Registered.accepted {e : Engine RsStrategy Wire} {p : PeerId} {i : Input RsStrategy}
    (h : Registered p e i) (hp : p ∉ e.connected) : e.acceptsHandshake p := by
  unfold Registered at h
  split at h
  · obtain ⟨rfl, hok⟩ := h
    exact connect_eq_ok hp hok
  · obtain ⟨rfl, hsent⟩ := h
    rw [runOneStep, (maybeRunCleanup_frame _).1, handleEvent, registerPeerAndHandshake_net, if_neg hp,
      List.drop_left] at hsent
    exact hsent _ (List.mem_singleton_self _)
  · exact h.elim

/-- **When a registration has been announced.**  In every run, a successful `connect` or
`PeerConnected` has a handshake accepted since the peer's last disconnect exactly when the peer did
not stand silent: marked connected by its own handshake, or by a registration whose handshake was
refused. -/
theorem run_announced_iff (localPeer : PeerId) (net : Wire) (delivered : Sink)
    (config : EngineConfig) (clock : Clock) (inputs : List (Input RsStrategy))
    (call : Input RsStrategy) (p : PeerId)
    (hcall : Registered p ((withConfig localPeer net delivered config clock).run inputs) call) :
    Announced p (withConfig localPeer net delivered config clock) (inputs ++ [call])
      ↔ standing p (withConfig localPeer net delivered config clock) inputs ≠ .silent := by
  have hsound := standingSound_run localPeer net delivered config clock inputs p
  rw [announced_concat, ← hsound.greeted]
  have hregisters := hcall.registers
  have hdisconnects : ¬ call.disconnects p := by
    unfold Input.registers at hregisters
    split at hregisters <;> simp_all [Input.disconnects]
  by_cases hp : p ∈ ((withConfig localPeer net delivered config clock).run inputs).connected
  · have hstranger : standing p (withConfig localPeer net delivered config clock) inputs
        ≠ .stranger := fun h => hsound.stranger h hp
    simp only [hdisconnects, hp, not_true_eq_false, false_and, and_false, or_false]
    cases hst : standing p (withConfig localPeer net delivered config clock) inputs with
    | stranger => exact absurd hst hstranger
    | silent => simp
    | greeted => simp
  · have hsilent : standing p (withConfig localPeer net delivered config clock) inputs
        ≠ .silent := fun h => hp (hsound.silent h)
    simp [hdisconnects, hregisters, hp, hcall.accepted hp, hsilent]

end Runs

section OneShard

attribute [local instance] oneShard

/-- The first message is refused. -/
def refuseFirst (log : List Sent) (_ : NetSend) : Except NetError Unit :=
  if log = [] then .error .closed else .ok ()

/-- A refused connect, a disconnect, and a connect that succeeds. -/
theorem run_announced_after_disconnect :
    standing 1 (nodeOver refuseFirst) [.connect 1, .event (.peerDisconnected 1)] ≠ .silent
    ∧ Announced 1 (nodeOver refuseFirst)
        ([.connect 1, .event (.peerDisconnected 1)] ++ [.connect 1]) := by
  have hst : standing 1 (nodeOver refuseFirst) [.connect 1, .event (.peerDisconnected 1)]
      ≠ .silent := by decide +kernel
  have hcall : Registered 1 ((nodeOver refuseFirst).run
      [.connect 1, .event (.peerDisconnected 1)]) (.connect 1) := ⟨rfl, by decide +kernel⟩
  exact ⟨hst, (run_announced_iff _ _ _ _ _ _ _ _ hcall).mpr hst⟩

/-- A peer whose own handshake came first, and a peer whose first handshake was refused, are never
sent one: the (second) `connect` answers `Ok` all the same. -/
theorem run_not_announced_silent :
    ¬ (Registered 1 ((nodeOver fun _ _ => .ok ()).run [.event (.handshake 1 1 [] "peer-1")])
        (.connect 1)
      → Announced 1 (nodeOver fun _ _ => .ok ())
          ([.event (.handshake 1 1 [] "peer-1")] ++ [.connect 1]))
    ∧ ¬ (Registered 1 ((nodeOver refuseFirst).run [.connect 1]) (.connect 1)
      → Announced 1 (nodeOver refuseFirst) ([.connect 1] ++ [.connect 1])) := by
  constructor
  · intro h
    have hnot : ¬ Announced 1 (nodeOver fun _ _ => .ok ())
        ([.event (.handshake 1 1 [] "peer-1")] ++ [.connect 1]) := by decide +kernel
    exact hnot (h ⟨rfl, by decide +kernel⟩)
  · intro h
    have hnot : ¬ Announced 1 (nodeOver refuseFirst) ([.connect 1] ++ [.connect 1]) := by
      decide +kernel
    exact hnot (h ⟨rfl, by decide +kernel⟩)

end OneShard

end Engine

end Ethp2p
