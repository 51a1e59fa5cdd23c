/-
# Ethp2p.Sim.Posts — a simulation without delays is a mesh.

What is on its way to a peer is in its inbox, or in the queue (`SimState.post`).  If no fault rule delays,
everything in the queue is due now and a new message is due behind all others, so popping moves the front of
what is in the queue to the end of what is in the inbox and `post` stays as it is.  Thus `post` is the mail of
a mesh, whatever the scenario: a submission appends to it or is dropped, and only serving an engine reads it.

`SimRunner.Move` is one small step of a scenario, and `Move.meshed` shows that it is a move of the mesh, or
none.  An engine's transport is the shared simulation; `Engine.step_mirrors` puts the engine on a wire instead.
-/
import Ethp2p.Mesh
import Ethp2p.Sim.Quiescence

namespace Ethp2p

/-! ## Plans without delays -/

/-- The action holds no message back. -/
def FaultAction.Undelaying : FaultAction → Prop
  | .delayIf .. | .delayJitter .. => False
  | .dropIf .. | .dropWithProbability .. | .partition .. => True

/-- No rule delays. -/
def FaultPlan.Undelayed {R : Type} (plan : FaultPlan R) : Prop :=
  ∀ rule ∈ plan.rules, rule.action.Undelaying

namespace FaultPlan

variable {R : Type} [Rand R]

/-- An action without delay drops the message or leaves it alone. -/
theorem act_undelaying {action : FaultAction} (h : action.Undelaying) (rng : R) (now : Duration)
    (msg : NetSend) :
    ((act action rng now msg).1 = .deliver 0 ∨ ∃ reason, (act action rng now msg).1 = .drop reason)
    ∧ (act action rng now msg).2.1.Undelaying := by
  cases action with
  | partition start until_ =>
    refine ⟨?_, h⟩
    unfold act
    dsimp only
    split
    · exact .inr ⟨_, rfl⟩
    · exact .inl rfl
  | dropIf pred =>
    refine ⟨?_, trivial⟩
    unfold act
    dsimp only
    split
    · exact .inr ⟨_, rfl⟩
    · exact .inl rfl
  | dropWithProbability p =>
    refine ⟨?_, h⟩
    unfold act
    dsimp only
    split
    · exact .inr ⟨_, rfl⟩
    · exact .inl rfl
  | delayIf | delayJitter => exact h.elim

theorem classifyFrom_undelayed (src dst : PeerId) (now : Duration) (msg : NetSend)
    (rules : List FaultRule) (rng : R) (delay : Duration)
    (h : ∀ rule ∈ rules, rule.action.Undelaying) :
    ((classifyFrom src dst now msg rules rng delay).1 = .deliver delay
      ∨ ∃ reason, (classifyFrom src dst now msg rules rng delay).1 = .drop reason)
    ∧ ∀ rule ∈ (classifyFrom src dst now msg rules rng delay).2.1, rule.action.Undelaying := by
  induction rules generalizing rng delay with
  | nil => exact ⟨.inl rfl, h⟩
  | cons rule rules ih =>
    obtain ⟨hrule, hrules⟩ := List.forall_mem_cons.mp h
    unfold classifyFrom
    split
    case isTrue =>
      obtain ⟨hact, hundelaying⟩ := act_undelaying hrule rng now msg
      rcases hcase : act rule.action rng now msg with ⟨result, action, rng'⟩
      rw [hcase] at hact hundelaying
      rcases hact with hdeliver | ⟨reason, hdrop⟩
      · have hdeliver' : result = .deliver 0 := hdeliver
        subst hdeliver'
        obtain ⟨hresult, hafter⟩ := ih rng' delay hrules
        exact ⟨hresult, List.forall_mem_cons.mpr ⟨hundelaying, hafter⟩⟩
      · have hdrop' : result = .drop reason := hdrop
        subst hdrop'
        exact ⟨.inr ⟨reason, rfl⟩, List.forall_mem_cons.mpr ⟨hundelaying, hrules⟩⟩
    case isFalse =>
      obtain ⟨hresult, hafter⟩ := ih rng delay hrules
      exact ⟨hresult, List.forall_mem_cons.mpr ⟨hrule, hafter⟩⟩

theorem Undelayed.classify {plan : FaultPlan R} (h : plan.Undelayed) (src dst : PeerId) (now : Duration)
    (msg : NetSend) :
    ((plan.classify src dst now msg).1 = .deliver 0
      ∨ ∃ reason, (plan.classify src dst now msg).1 = .drop reason)
    ∧ (plan.classify src dst now msg).2.Undelayed :=
  classifyFrom_undelayed src dst now msg plan.rules plan.rng 0 h

end FaultPlan

/-! ## What is on its way -/

namespace SimState

variable {R : Type} {s s' : SimState R}

/-- Everything that was ever on its way to a peer and was not dropped. -/
def post (s : SimState R) (p : PeerId) : List NetEvent := s.received p ++ s.inTransit (fun _ => true) p

/-- Nothing is held back: all that is in the queue is due now, and it is for registered peers that listen. -/
structure Prompt (s : SimState R) : Prop extends s.Timed where
  prompt : ∀ entry ∈ s.heap.entries, entry.due ≤ s.now
  undelayed : s.plan.Undelayed
  known : ∀ entry ∈ s.heap.entries, ∀ dst event, entry.pending = .delivery dst event → dst ∈ s.inboxes
  live : ∀ p : PeerId, ∀ inbox ∈ s.inboxes[p]?, inbox.closed = false

/-- The chunks that were dropped on a link, by what the trace says. -/
def droppedChunks (src dst : PeerId) (trace : List TraceEntry) : List Nat :=
  trace.filterMap fun entry =>
    match entry.kind with
    | .send a b (.chunk idx) (.dropped _) => if a = src ∧ b = dst then some idx else none
    | _ => none

/-- A delivery of the queue shows in the post of its destination. -/
theorem event_onLinks {entry : Event Pending} {dst p : PeerId} {event : NetEvent}
    (h : entry.pending = .delivery dst event) :
    ([entry].filter (Event.onLinks (fun _ => true) p)).filterMap Event.event?
      = if dst = p then [event] else [] := by
  by_cases hp : dst = p <;> simp [Event.onLinks, Event.event?, h, hp]

/-- **Popping** moves the front of the queue behind what is in the inbox. -/
theorem Prompt.popped {step : PumpStep} (h : s.Prompt) (hpop : Popped s step s') :
    s'.Prompt ∧ s'.post = s.post := by
  obtain ⟨htimed, hnow⟩ := h.toTimed.popped hpop
  obtain ⟨entry, hheap, -, -, hplan⟩ := hpop.heap
  have hentries := EventQueue.pop_entries hheap
  have hmem : ∀ x ∈ s'.heap.entries, x ∈ s.heap.entries := fun x hx =>
    hentries ▸ List.mem_cons_of_mem entry hx
  have hprompt : ∀ x ∈ s'.heap.entries, x.due ≤ s'.now := fun x hx => (h.prompt x (hmem x hx)).trans hnow
  have hundelayed : s'.plan.Undelayed := hplan ▸ h.undelayed
  have hknown : ∀ x ∈ s'.heap.entries, ∀ dst event, x.pending = .delivery dst event → dst ∈ s'.inboxes :=
    fun x hx dst event hx' => hpop.mem_inboxes.mpr (h.known x (hmem x hx) dst event hx')
  have htransit : ∀ p, s.inTransit (fun _ => true) p
      = ([entry].filter (Event.onLinks (fun _ => true) p)).filterMap Event.event?
        ++ s'.inTransit (fun _ => true) p := by
    intro p
    rw [inTransit, inTransit, hentries, ← List.filterMap_append, ← List.filter_append]
    rfl
  cases hpop with
  | @delivered entry' heap dst event inbox hpop' hentry hinbox =>
    obtain ⟨rfl, -⟩ := Prod.mk.inj (Option.some.inj (hpop'.symm.trans hheap))
    have hopen := h.live dst inbox hinbox
    have hget : ∀ p, (s.inboxes.insert dst (inbox.send event).2)[p]?
        = if dst = p then some { inbox with events := inbox.events ++ [event] } else s.inboxes[p]? := by
      intro p
      rw [Inbox.send_of_open hopen]
      exact BTreeMap.get_insert _ _ _ _
    refine ⟨⟨htimed, hprompt, hundelayed, hknown, fun p inbox' hinbox' => ?_⟩, funext fun p => ?_⟩
    · rw [hget] at hinbox'
      split at hinbox'
      · obtain rfl := Option.some.inj hinbox'
        exact hopen
      · exact h.live p inbox' hinbox'
    · have hreceived : received { s with
          now := entry'.due, heap, inboxes := s.inboxes.insert dst (inbox.send event).2 } p
          = s.received p ++ if dst = p then [event] else [] := by
        rw [received, received, hget]
        split
        case isTrue hp =>
          subst hp
          rw [hinbox]
          rfl
        case isFalse => exact (List.append_nil _).symm
      rw [post, post, htransit p, event_onLinks hentry, hreceived, List.append_assoc]
  | @lost entry' heap dst event hpop' hentry hinbox =>
    obtain ⟨rfl, -⟩ := Prod.mk.inj (Option.some.inj (hpop'.symm.trans hheap))
    -- a message is for a registered peer
    obtain ⟨inbox, hinbox'⟩ := (BTreeMap.mem_iff_get _ _).mp
      (h.known entry' (hentries ▸ List.mem_cons_self) dst event hentry)
    cases hinbox.symm.trans hinbox'
  | @woke entry' heap id hpop' hentry =>
    obtain ⟨rfl, -⟩ := Prod.mk.inj (Option.some.inj (hpop'.symm.trans hheap))
    refine ⟨⟨htimed, hprompt, hundelayed, hknown, h.live⟩, funext fun p => ?_⟩
    have hother : ([entry'].filter (Event.onLinks (fun _ => true) p)).filterMap Event.event? = [] := by
      simp [Event.onLinks, hentry]
    rw [post, post, htransit p, hother]
    rfl

/-- Moving the clock is safe when nothing is due before. -/
theorem Prompt.setNow (h : s.Prompt) {target : Duration} (hlater : s.now ≤ target)
    (hdue : ∀ entry ∈ s.heap.entries, target ≤ entry.due) : Prompt { s with now := target } :=
  { h with
    due := hdue
    prompt := fun entry hentry => (h.prompt entry hentry).trans hlater }

/-- Recording a step moves nothing. -/
theorem Prompt.noted (h : s.Prompt) (p : PeerId) : (s.recordEngineStep p).Prompt :=
  { h with seq := fun entry hentry => Nat.lt_succ_of_lt (h.seq entry hentry) }

variable [Rand R]

/-- What becomes of a submission when nothing is held back. -/
inductive Posted (src : PeerId) (msg : NetSend) (s : SimState R) : Except NetError Unit × SimState R → Prop
  | command (hnone : msg.destPeer = none) : Posted src msg s (.ok (), s)
  | unknown {dst : PeerId} {err : NetError} (hdst : msg.destPeer = some dst) (hnot : dst ∉ s.inboxes) :
      Posted src msg s (.error err, s)
  | dropped {dst : PeerId} {kind : MsgKind} {reason : DropReason} {s' : SimState R}
      (hdst : msg.destPeer = some dst) (hkind : MsgKind.of msg = some kind)
      (htrace : s'.trace = s.trace ++ [⟨s.now, s.nextSeq, .send src dst kind (.dropped reason)⟩])
      (hpost : s'.post = s.post) : Posted src msg s (.ok (), s')
  | carried {dst : PeerId} {kind : MsgKind} {event : NetEvent} {deliverAt : Duration} {s' : SimState R}
      (hdst : msg.destPeer = some dst) (hevent : intoEvent src msg = some event)
      (htrace : s'.trace = s.trace ++ [⟨s.now, s.nextSeq, .send src dst kind (.delivered deliverAt)⟩])
      (hpost : s'.post = Function.update s.post dst (s.post dst ++ [event])) : Posted src msg s (.ok (), s')

/-- **A submission** goes to the end of its destination's post, or is dropped. -/
theorem Prompt.submitSend (h : s.Prompt) (src : PeerId) (msg : NetSend) :
    Posted src msg s (s.submitSend src msg) ∧ (s.submitSend src msg).2.Prompt
    ∧ (s.submitSend src msg).2.wallNow = s.wallNow := by
  unfold SimState.submitSend
  rcases destPeer_cases src msg with hnone | ⟨dst, kind, event, hdst, hkind, hevent⟩
  · simp only [hnone]
    exact ⟨.command hnone, h, trivial⟩
  · simp only [hdst, hkind, hevent]
    split
    case isTrue hnot => exact ⟨.unknown hdst hnot, h, rfl⟩
    case isFalse hmem =>
      have hknown : dst ∈ s.inboxes := not_not.mp hmem
      obtain ⟨hresult, hundelayed⟩ := h.undelayed.classify src dst s.now msg
      split
      case h_1 reason hdrop =>
        refine ⟨.dropped hdst hkind rfl rfl, ?_, rfl⟩
        exact { h with
          seq := fun entry hentry => Nat.lt_succ_of_lt (h.seq entry hentry)
          undelayed := hundelayed }
      case h_2 delay hdeliver =>
        have hzero : delay = 0 := by
          rcases hresult with hzero | ⟨reason, hdrop⟩
          · rw [hdeliver] at hzero
            cases hzero
            rfl
          · rw [hdeliver] at hdrop
            cases hdrop
        subst hzero
        refine ⟨.carried hdst hevent rfl (funext fun p => ?_), ?_, rfl⟩
        · by_cases hp : p = dst
          · subst hp
            rw [Function.update_self]
            have honlinks : Event.onLinks (fun _ => true) p
                (Event.mk (s.now + 0) s.nextSeq (.delivery p event)) = true := by
              simp [Event.onLinks]
            -- the new entry comes after everything that is in the queue
            have hlast := EventQueue.filter_push_last (q := s.heap) honlinks fun x hx _ hbefore => by
              have hdue := h.prompt x hx
              have hseq := h.seq x hx
              rcases hbefore with hlt | ⟨-, hle⟩
              · exact absurd hdue (Nat.not_le_of_lt hlt)
              · exact absurd hle (Nat.not_le_of_lt hseq)
            simp only [post, received, inTransit, hlast, List.filterMap_append, List.append_assoc]
            rfl
          · rw [Function.update_of_ne hp]
            have hother : Event.onLinks (fun _ => true) p
                (Event.mk (s.now + 0) s.nextSeq (.delivery dst event)) = false := by
              simp [Event.onLinks, Ne.symm hp]
            simp only [post, received, inTransit, EventQueue.filter_push_of_neg hother]
        · refine
            { toTimed := h.toTimed.push (Nat.le_add_right _ _)
              prompt := fun entry hentry => ?_
              undelayed := hundelayed
              known := fun entry hentry dst' event' hentry' => ?_
              live := h.live }
          · rcases EventQueue.mem_push.mp hentry with rfl | hentry
            · exact le_rfl
            · exact h.prompt entry hentry
          · rcases EventQueue.mem_push.mp hentry with rfl | hentry
            · cases hentry'
              exact hknown
            · exact h.known entry hentry dst' event' hentry'

/-- No `SessionOpen` was dropped. -/
def OpensKept (trace : List TraceEntry) : Prop :=
  ∀ entry ∈ trace, ∀ src dst reason, entry.kind ≠ .send src dst .sessionOpen (.dropped reason)

omit [Rand R] in
theorem OpensKept.left {trace more : List TraceEntry} (h : OpensKept (trace ++ more)) : OpensKept trace :=
  fun entry hentry => h entry (List.mem_append_left _ hentry)

end SimState

/-! ## One call of an engine -/

namespace SimRunner

variable {R : Type}

/-- What is in an engine's sink. -/
def sink (r : SimRunner R) (p : PeerId) : List DeliveredMessage :=
  (r.engines[p]?.map (·.delivered.queue)).getD []

/-- The simulation as a mesh; `got` is what the applications have taken out of their sinks. -/
def mesh (r : SimRunner R) (got : PeerId → List DeliveredMessage) : Mesh where
  engines p := r.engines[p]?.map (·.onWire .idle)
  mail := r.hub.post
  read p := (r.steppedWith p).length
  out p := got p ++ r.sink p

variable [Crates] [Rand R]

/-- An engine with the simulation's clock, and the wire of the simulation for its transport. -/
def lent (r : SimRunner R) (p : PeerId) (e : Engine RsStrategy (SimNetEndpoint R)) :
    Engine RsStrategy Wire :=
  (e.onWire .idle).lent (Wire.over (⟨p, r.hub⟩ : SimNetEndpoint R)) r.hub.clock

/-- What a call of the engine of `p` has done to the simulation: `log` is what the engine submitted. -/
structure Called (pub : Publication) (p : PeerId) (hub hub' : SimState R) (log : List Sent) : Prop where
  prompt : hub'.Prompt
  wallNow_eq : hub'.wallNow = hub.wallNow
  inboxes_eq : hub'.inboxes = hub.inboxes
  senders : ∀ q, ∀ ev ∈ hub'.post q, ev ∈ hub.post q ∨ ev.sender = p
  accepted : ∀ sent ∈ log, sent.accepted ∨ ∃ dst, sent.msg.destPeer = some dst ∧ dst ∉ hub.inboxes
  conveyed : ∃ new, hub'.trace = hub.trace ++ new
    ∧ (SimState.OpensKept new ∨ (∀ sent ∈ log, sent.msg.sessionKey? ≠ some pub.key) →
      ∃ lost, Conveys pub p hub.post log lost hub'.post
        ∧ ∀ dst, Mesh.chunksTo dst lost = SimState.droppedChunks p dst new)

variable {pub : Publication} {p : PeerId} {hub hub' : SimState R} {log : List Sent}

omit [Rand R] in
theorem Called.refl (h : hub.Prompt) : Called pub p hub hub [] where
  prompt := h
  wallNow_eq := rfl
  inboxes_eq := rfl
  senders _ _ hev := .inl hev
  accepted _ hsent := by cases hsent
  conveyed := ⟨[], (List.append_nil _).symm, fun _ => ⟨[], .nil, fun _ => rfl⟩⟩

omit [Crates] [Rand R] in
/-- The trace entry of a dropped message says whether it is a chunk, which one, and where to. -/
theorem chunksTo_singleton {sent : Sent} {q dst : PeerId} {kind : MsgKind} {reason : DropReason}
    {time : Duration} {seq : Nat} (hdst : sent.msg.destPeer = some dst)
    (hkind : MsgKind.of sent.msg = some kind) :
    Mesh.chunksTo q [sent] = SimState.droppedChunks p q [⟨time, seq, .send p dst kind (.dropped reason)⟩] := by
  obtain ⟨msg, answer⟩ := sent
  cases msg with
  | chunk peer c m idx data token =>
    cases hkind
    cases hdst
    by_cases hq : dst = q <;> simp [Mesh.chunksTo, SimState.droppedChunks, hq]
  | handshake | subscribe | unsubscribe | sessionOpen | routingUpdate =>
    cases hkind
    rfl
  | sessionReconstructed => cases hkind

/-- One more message is submitted. -/
theorem Called.send (h : Called pub p hub hub' log) {sent : Sent}
    (hanswer : sent.answer = (hub'.submitSend p sent.msg).1) :
    Called pub p hub (hub'.submitSend p sent.msg).2 (log ++ [sent]) := by
  obtain ⟨hposted, hprompt, hnow⟩ := h.prompt.submitSend p sent.msg
  have hinboxes := inboxes_submitSend hub' p sent.msg
  obtain ⟨new, htrace, hconveyed⟩ := h.conveyed
  generalize hub'.submitSend p sent.msg = result at hanswer hposted hprompt hnow hinboxes
  have haccepted : ∀ {P : Sent → Prop}, (∀ x ∈ log, P x) → P sent → ∀ x ∈ log ++ [sent], P x := by
    intro P hlog hsent x hx
    rcases List.mem_append.mp hx with hx | hx
    · exact hlog x hx
    · rwa [List.mem_singleton.mp hx]
  -- what is dropped is no open, or no message of the key is submitted at all
  have hfront : ∀ more : List TraceEntry, SimState.OpensKept (new ++ more)
      ∨ (∀ x ∈ log ++ [sent], x.msg.sessionKey? ≠ some pub.key) →
      SimState.OpensKept new ∨ (∀ x ∈ log, x.msg.sessionKey? ≠ some pub.key) := by
    intro _ hcase
    exact hcase.imp SimState.OpensKept.left fun hkey x hx => hkey x (List.mem_append_left _ hx)
  cases hposted with
  | command hnone =>
    refine ⟨hprompt, hnow.trans h.wallNow_eq, hinboxes.trans h.inboxes_eq, h.senders,
      haccepted h.accepted (.inl (by rw [Sent.accepted, hanswer]; rfl)), new, htrace, fun hcase => ?_⟩
    obtain ⟨lost, hconveys, hchunks⟩ := hconveyed (hfront [] (by rwa [List.append_nil]))
    exact ⟨lost, hconveys.kept fun _ => hnone, hchunks⟩
  | @unknown dst err hdst hnot =>
    refine ⟨hprompt, hnow.trans h.wallNow_eq, hinboxes.trans h.inboxes_eq, h.senders,
      haccepted h.accepted (.inr ⟨dst, hdst, h.inboxes_eq ▸ hnot⟩), new, htrace, fun hcase => ?_⟩
    obtain ⟨lost, hconveys, hchunks⟩ := hconveyed (hfront [] (by rwa [List.append_nil]))
    refine ⟨lost, hconveys.kept fun hacc => ?_, hchunks⟩
    rw [Sent.accepted, hanswer] at hacc
    cases hacc
  | @dropped dst kind reason hub'' hdst hkind htrace' hpost =>
    have hok : sent.accepted := by
      rw [Sent.accepted, hanswer]
      rfl
    refine ⟨hprompt, hnow.trans h.wallNow_eq, hinboxes.trans h.inboxes_eq, fun q ev hev => ?_,
      haccepted h.accepted (.inl hok),
      new ++ [⟨hub'.now, hub'.nextSeq, .send p dst kind (.dropped reason)⟩], ?_, fun hcase => ?_⟩
    · have hev' : ev ∈ hub''.post q := hev
      rw [hpost] at hev'
      exact h.senders q ev hev'
    · show hub''.trace = _
      rw [htrace', htrace, List.append_assoc]
    · obtain ⟨lost, hconveys, hchunks⟩ := hconveyed (hfront _ hcase)
      show ∃ lost, Conveys pub p hub.post (log ++ [sent]) lost hub''.post ∧ _
      rw [hpost]
      refine ⟨lost ++ [sent], hconveys.lost fun peer b u hmsg => ?_, fun dst' => ?_⟩
      · rcases hcase with hkept | hkey
        · rw [hmsg] at hkind
          cases hkind
          exact hkept _ (List.mem_append_right _ (List.mem_singleton_self _)) p dst reason rfl
        · have hkey' := hkey sent (List.mem_append_right _ (List.mem_singleton_self _))
          rw [hmsg] at hkey'
          exact hkey' rfl
      · rw [Mesh.chunksTo, SimState.droppedChunks, List.filterMap_append, List.filterMap_append,
          ← Mesh.chunksTo, ← SimState.droppedChunks, hchunks]
        exact congrArg (_ ++ ·) (chunksTo_singleton hdst hkind)
  | @carried dst kind event deliverAt hub'' hdst hevent htrace' hpost =>
    have hok : sent.accepted := by
      rw [Sent.accepted, hanswer]
      rfl
    refine ⟨hprompt, hnow.trans h.wallNow_eq, hinboxes.trans h.inboxes_eq, fun q ev hev => ?_,
      haccepted h.accepted (.inl hok),
      new ++ [⟨hub'.now, hub'.nextSeq, .send p dst kind (.delivered deliverAt)⟩], ?_, fun hcase => ?_⟩
    · have hev' : ev ∈ hub''.post q := hev
      rw [hpost] at hev'
      rcases mem_update_mail.mp hev' with hev' | ⟨-, rfl⟩
      · exact h.senders q ev hev'
      · exact .inr (sender_intoEvent hevent)
    · show hub''.trace = _
      rw [htrace', htrace, List.append_assoc]
    · obtain ⟨lost, hconveys, hchunks⟩ := hconveyed (hfront _ hcase)
      show ∃ lost, Conveys pub p hub.post (log ++ [sent]) lost hub''.post ∧ _
      rw [hpost]
      refine ⟨lost, hconveys.carried hok hdst hevent, fun dst' => ?_⟩
      rw [SimState.droppedChunks, List.filterMap_append, ← SimState.droppedChunks, hchunks]
      have hnone : SimState.droppedChunks p dst'
          [⟨hub'.now, hub'.nextSeq, .send p dst kind (.delivered deliverAt)⟩] = [] := by
        cases kind <;> rfl
      exact (List.append_nil _).symm.trans (congrArg (_ ++ ·) hnone.symm)

/-- **A call of an engine on the simulation** is the call on its wire, and the simulation was submitted what
the wire has logged. -/
theorem perform_called (pub : Publication) {r : SimRunner R} {e : Engine RsStrategy (SimNetEndpoint R)}
    (hprompt : r.hub.Prompt) (hown : e.net.peerId = p) (i : Input RsStrategy) :
    ∃ e' : Engine RsStrategy (SimNetEndpoint R),
      r.perform p e i = (((r.lent p e).step i).1,
        { r with hub := e'.net.shared, engines := r.engines.insert p e' })
      ∧ e'.onWire .idle = ((r.lent p e).step i).2.onWire .idle ∧ e'.net.peerId = p
      ∧ Called pub p r.hub e'.net.shared ((r.lent p e).step i).2.net.log := by
  have hstart : { e with net := ({ e.net with shared := r.hub } : SimNetEndpoint R), clock := r.hub.clock }.net
      = (⟨p, r.hub⟩ : SimNetEndpoint R) := by
    show SimNetEndpoint.mk e.net.peerId r.hub = _
    rw [hown]
  have hover : (Wire.over (⟨p, r.hub⟩ : SimNetEndpoint R)).Traces (⟨p, r.hub⟩ : SimNetEndpoint R)
      { e with net := ({ e.net with shared := r.hub } : SimNetEndpoint R), clock := r.hub.clock }.net := by
    rw [hstart]
    exact Wire.over_traces _
  -- the engine that is lent sees the answers the endpoint gives, one by one
  obtain ⟨w, htraces, hstep⟩ := Engine.step_mirrors i hover
  have hlent : (r.lent p e).step i = _ := hstep
  refine ⟨({ e with
    net := ({ e.net with shared := r.hub } : SimNetEndpoint R)
    clock := r.hub.clock }.step i).2, ?_, ?_, ?_⟩
  · rw [hlent]
    rfl
  · rw [hlent]
    rfl
  · rw [hlent]
    have hcalled := htraces.induct (Q := fun net log => net.peerId = p ∧ Called pub p r.hub net.shared log)
      ⟨rfl, .refl hprompt⟩ (fun before sent after net₁ _ hanswer hbefore => ?_)
    · exact hcalled
    · obtain ⟨hpeer, hcalled⟩ := hbefore
      refine ⟨hpeer, ?_⟩
      rw [← hpeer]
      have hcalled' : Called pub net₁.peerId r.hub net₁.shared before := hpeer ▸ hcalled
      exact hcalled'.send hanswer

end SimRunner

end Ethp2p
