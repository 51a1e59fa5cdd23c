/-
# Ethp2p.Sim.Baseline — the simulated transport without faults against the in-process one.

Both hubs take the same submissions.  `Twin` relates them: they know the same peers, and what is on its way
to a peer in the simulation, behind what has reached it, is what the in-process hub has put into the
peer's queue, up to the two events the in-process hub makes up on the side.

These two are where the transports differ.  The simulation makes neither: it does not model the reset of a
reconstructed session, and it acknowledges no chunk.
-/
import Ethp2p.Sim.Links

namespace Ethp2p

/-- The event reports what became of a chunk. -/
def NetEvent.isAcknowledgement : NetEvent → Bool
  | .chunkSendResult .. => true
  | _ => false

/-- The event announces that the receiver of a session reconstructed it. -/
def NetEvent.isReset : NetEvent → Bool
  | .peerReconstructed .. => true
  | _ => false

/-- The event is a message some peer sent, not one the in-process hub makes up. -/
def NetEvent.isMessage (event : NetEvent) : Bool := !event.isAcknowledgement && !event.isReset

/-- Events of messages are told from those of the hub itself. -/
theorem isMessage_intoEvent {src : PeerId} {msg : NetSend} {event : NetEvent}
    (h : intoEvent src msg = some event) : event.isMessage = true := by
  cases msg <;> simp only [intoEvent, Option.some.injEq, reduceCtorEq] at h <;> subst h <;> rfl

/-- Both transports show the destination the same event. -/
theorem eventOf_eq_intoEvent (src : PeerId) (msg : NetSend) :
    MemoryNetHub.eventOf src msg = intoEvent src msg := by
  cases msg <;> rfl

/-! ## Submitting -/

/-- Register peers with the in-process hub. -/
def MemoryNetHub.endpoints (hub : MemoryNetHub) (peers : List PeerId) : MemoryNetHub :=
  peers.foldl MemoryNetHub.endpoint hub

/-- Submit messages in turn, each from its sender's endpoint; the answers and the hub afterwards. -/
def MemoryNetHub.sendAll (hub : MemoryNetHub) :
    List (PeerId × NetSend) → List (Except NetError Unit) × MemoryNetHub
  | [] => ([], hub)
  | (src, msg) :: sends =>
    let (answer, hub) := MemoryNetHub.send src hub msg
    let (answers, hub) := hub.sendAll sends
    (answer :: answers, hub)

variable {R : Type}

/-- Register peers with the simulation. -/
def SimState.endpoints (s : SimState R) (peers : List PeerId) : SimState R :=
  peers.foldl SimState.endpoint s

/-- Submit messages in turn, each from its sender's endpoint; the answers and the state afterwards. -/
def SimState.sendAll [Rand R] (s : SimState R) :
    List (PeerId × NetSend) → List (Except NetError Unit) × SimState R
  | [] => ([], s)
  | (src, msg) :: sends =>
    let (answer, s) := s.submitSend src msg
    let (answers, s) := s.sendAll sends
    (answer :: answers, s)

/-! ## What the in-process hub does to the queues -/

namespace MemoryNetHub

/-- The hub knows these peers, their queues are open and hold these messages, apart from what the hub
makes up. -/
structure Holds (hub : MemoryNetHub) (known : PeerId → Prop) (messages : PeerId → List NetEvent) :
    Prop where
  known : ∀ p, p ∈ hub.senders ↔ known p
  live : ∀ (p : PeerId) (inbox : Inbox), hub.senders[p]? = some inbox → inbox.closed = false
  messages : ∀ p, (hub.received p).filter NetEvent.isMessage = messages p

variable {hub : MemoryNetHub} {known : PeerId → Prop} {messages : PeerId → List NetEvent}

/-- Put an event into a queue. -/
theorem Holds.insert (h : hub.Holds known messages) {dst : PeerId} {inbox : Inbox}
    (hinbox : hub.senders[dst]? = some inbox) (event : NetEvent) :
    Holds { hub with senders := hub.senders.insert dst (inbox.send event).2 } known
      fun p => messages p ++ if p = dst then [event].filter NetEvent.isMessage else [] := by
  have hopen := h.live dst inbox hinbox
  have hget : ∀ p, (hub.senders.insert dst (inbox.send event).2)[p]?
      = if dst = p then some (inbox.send event).2 else hub.senders[p]? :=
    fun p => BTreeMap.get_insert _ _ _ _
  rw [Inbox.send_of_open hopen] at hget ⊢
  refine ⟨fun p => ?_, fun p inbox' hinbox' => ?_, fun p => ?_⟩
  · rw [← h.known]
    refine Std.ExtTreeMap.mem_insert.trans (or_iff_right_of_imp fun hp => ?_)
    obtain rfl := Std.LawfulEqOrd.eq_of_compare hp
    exact (BTreeMap.mem_iff_get _ _).mpr ⟨inbox, hinbox⟩
  · rw [hget] at hinbox'
    split at hinbox'
    · obtain rfl := Option.some.inj hinbox'
      exact hopen
    · exact h.live p inbox' hinbox'
  · rw [← h.messages, received, received, hget]
    by_cases hp : dst = p
    · subst hp
      simp [hinbox, List.filter_append]
    · simp [hp, Ne.symm hp]

/-- What the hub makes up is no message. -/
theorem Holds.notify (h : hub.Holds known messages) (peer : PeerId) {event : NetEvent}
    (hevent : event.isMessage = false) : (hub.notify peer event).Holds known messages := by
  unfold MemoryNetHub.notify
  split
  case h_1 inbox hinbox => simpa [hevent] using h.insert hinbox event
  case h_2 => exact h

/-- The hub's own events are none of the messages. -/
theorem Holds.acknowledge (h : hub.Holds known messages) (src : PeerId) (msg : NetSend) :
    (hub.acknowledge src msg).Holds known messages := by
  cases msg
  case chunk => exact h.notify src rfl
  all_goals exact h

/-- What the hub remembers of opens is none of the messages. -/
theorem Holds.recordOpen (h : hub.Holds known messages) (src : PeerId) (msg : NetSend) :
    (hub.recordOpen src msg).Holds known messages := by
  cases msg
  case sessionOpen => exact ⟨h.known, h.live, h.messages⟩
  all_goals exact h

theorem Holds.notifyAll (h : hub.Holds known messages) (openers : List PeerId) (event : NetEvent)
    (hevent : event.isMessage = false) :
    (openers.foldl (fun hub opener => hub.notify opener event) hub).Holds known messages := by
  induction openers generalizing hub with
  | nil => exact h
  | cons opener openers ih => exact ih (h.notify opener hevent)

/-- A new endpoint has no messages. -/
theorem Holds.endpoint (h : hub.Holds known messages) (hnone : ∀ p, messages p = []) (peer : PeerId) :
    (hub.endpoint peer).Holds (fun p => p = peer ∨ known p) messages := by
  have hget : ∀ p, (hub.senders.insert peer {})[p]? = if peer = p then some {} else hub.senders[p]? :=
    fun p => BTreeMap.get_insert _ _ _ _
  refine ⟨fun p => ?_, fun p inbox hinbox => ?_, fun p => ?_⟩
  · refine Std.ExtTreeMap.mem_insert.trans (or_congr ?_ (h.known p))
    rw [Std.LawfulEqOrd.compare_eq_iff_eq]
    exact eq_comm
  · have hinbox' : (hub.senders.insert peer {})[p]? = some inbox := hinbox
    rw [hget] at hinbox'
    split at hinbox'
    · obtain rfl := Option.some.inj hinbox'
      rfl
    · exact h.live p inbox hinbox'
  · have hold := h.messages p
    rw [received] at hold
    rw [received, MemoryNetHub.endpoint, hget]
    split
    · exact (hnone p).symm
    · exact hold

/-- A message to nobody is refused. -/
theorem send_of_absent (hub : MemoryNetHub) {src dst : PeerId} {msg : NetSend} {event : NetEvent}
    (hdst : msg.destPeer = some dst) (hevent : eventOf src msg = some event)
    (habsent : (hub.recordOpen src msg).senders[dst]? = none) :
    MemoryNetHub.send src hub msg = (.error (.peerNotFound dst), hub.recordOpen src msg) := by
  cases msg
  case sessionReconstructed => cases hdst
  all_goals simp only [MemoryNetHub.send, hdst, hevent, habsent]

/-- A message to an endpoint that is open is put into its inbox. -/
theorem send_of_open (hub : MemoryNetHub) {src dst : PeerId} {msg : NetSend} {event : NetEvent}
    (hdst : msg.destPeer = some dst) (hevent : eventOf src msg = some event) {inbox : Inbox}
    (hinbox : (hub.recordOpen src msg).senders[dst]? = some inbox) (hopen : inbox.closed = false) :
    MemoryNetHub.send src hub msg
      = (.ok (), { hub.recordOpen src msg with
          senders := (hub.recordOpen src msg).senders.insert dst
            { inbox with events := inbox.events ++ [event] } }.acknowledge src msg) := by
  cases msg
  case sessionReconstructed => cases hdst
  all_goals simp only [MemoryNetHub.send, hdst, hevent, hinbox, Inbox.send_of_open hopen]

/-- **What the in-process hub does with a message**: it answers by whether it knows the destination, and
puts the event into the destination's queue. -/
theorem Holds.send (h : hub.Holds known messages) [DecidablePred known] (src : PeerId)
    (msg : NetSend) :
    (MemoryNetHub.send src hub msg).1
      = (match msg.destPeer with
        | some dst => if known dst then .ok () else .error (.peerNotFound dst)
        | none => .ok ())
    ∧ (MemoryNetHub.send src hub msg).2.Holds known fun p =>
      messages p ++ if known p then (SimState.Op.submit src msg).puts (fun _ => true) p else [] := by
  -- a local command puts nothing; any other message goes to the one peer it names
  rcases SimState.destPeer_cases src msg with hnone | ⟨dst, kind, event, hdst, -, hevent⟩
  · have hnil : (fun p => messages p
        ++ if known p then (SimState.Op.submit src msg).puts (fun _ => true) p else []) = messages := by
      funext p
      simp [SimState.Op.puts, hnone]
    rw [hnil]
    cases msg
    case sessionReconstructed channel messageId =>
      have herased : Holds { hub with
          inboundOpeners := hub.inboundOpeners.erase (src, channel, messageId) } known messages :=
        ⟨h.known, h.live, h.messages⟩
      exact ⟨rfl, herased.notifyAll (hub.inboundOpeners.getD (src, channel, messageId) ∅).toList
        (.peerReconstructed src channel messageId) rfl⟩
    all_goals cases hnone
  · have hputs : ∀ p, (SimState.Op.submit src msg).puts (fun _ => true) p
        = if p = dst then [event] else [] := by
      intro p
      simp only [SimState.Op.puts, hdst, hevent, true_and, Option.some.injEq, Option.toList_some,
        eq_comm (a := dst)]
    have hevent' := (eventOf_eq_intoEvent src msg).trans hevent
    have hrecorded := h.recordOpen src msg
    simp only [hputs, hdst]
    cases hinbox : (hub.recordOpen src msg).senders[dst]? with
    | none =>
      have hnot : ¬ known dst := fun hknown =>
        BTreeMap.not_mem_of_get hinbox ((hrecorded.known dst).mpr hknown)
      rw [if_neg hnot, hub.send_of_absent hdst hevent' hinbox]
      refine ⟨rfl, ?_⟩
      convert hrecorded using 2 with p
      by_cases hp : p = dst
      · subst hp
        simp [hnot]
      · simp [hp]
    | some inbox =>
      have hknown : known dst := (hrecorded.known dst).mp ((BTreeMap.mem_iff_get _ _).mpr ⟨inbox, hinbox⟩)
      have hopen := hrecorded.live dst inbox hinbox
      -- the delivery, and then the result echoed to the sender, which is no message
      have hput := (hrecorded.insert hinbox event).acknowledge src msg
      rw [Inbox.send_of_open hopen] at hput
      rw [if_pos hknown, hub.send_of_open hdst hevent' hinbox hopen]
      refine ⟨rfl, ?_⟩
      convert hput using 2 with p
      by_cases hp : p = dst
      · subst hp
        simp [hknown, isMessage_intoEvent hevent]
      · simp [hp]

end MemoryNetHub

/-! ## Both hubs -/

namespace SimState

variable [Rand R] {hub : MemoryNetHub} {s : SimState R} {messages : PeerId → List NetEvent}

/-- Both hubs know the same peers and were given the same messages. -/
structure Twin (hub : MemoryNetHub) (s : SimState R) (messages : PeerId → List NetEvent) : Prop where
  hub : hub.Holds (· ∈ s.inboxes) messages
  sim : ∀ p, Linked (fun _ => true) p (messages p) s

omit [Rand R] in
/-- The same endpoints on both networks. -/
theorem Twin.endpoints (h : Twin hub s fun _ => []) (peers : List PeerId) :
    Twin (hub.endpoints peers) (s.endpoints peers) fun _ => [] := by
  induction peers generalizing hub s with
  | nil => exact h
  | cons peer peers ih =>
    refine ih ⟨?_, fun p => (h.sim p).endpoint fun _ => ?_⟩
    · have hpeer := h.hub.endpoint (fun _ => rfl) peer
      refine ⟨fun p => (hpeer.known p).trans (Iff.symm ?_), hpeer.live, hpeer.messages⟩
      refine Std.ExtTreeMap.mem_insert.trans (or_congr_left ?_)
      rw [Std.LawfulEqOrd.compare_eq_iff_eq]
      exact eq_comm
    · have hnone := (List.append_eq_nil_iff.mp (h.sim p).split).1
      simpa [arrived] using hnone

/-- **One submission**: the same answer, and the hubs stay alike. -/
theorem Twin.submitSend (h : Twin hub s messages) (src : PeerId) (msg : NetSend) :
    (MemoryNetHub.send src hub msg).1 = (s.submitSend src msg).1
    ∧ Twin (MemoryNetHub.send src hub msg).2 (s.submitSend src msg).2 fun p =>
      messages p ++ if p ∈ s.inboxes then (Op.submit src msg).puts (fun _ => true) p else [] := by
  obtain ⟨hanswer, hhub⟩ := h.hub.send src msg
  have hsim := fun p => (h.sim p).submitSend src msg
  have hinboxes : ∀ p, p ∈ (s.submitSend src msg).2.inboxes ↔ p ∈ s.inboxes := fun p =>
    (mem_inboxes_apply s (.submit src msg)).trans (by simp)
  refine ⟨hanswer.trans ?_, ⟨fun p => (hhub.known p).trans (hinboxes p).symm, hhub.live,
    hhub.messages⟩, hsim⟩
  have hcases := s.submitSend_cases src msg
  generalize s.submitSend src msg = result at hcases ⊢
  cases hcases with
  | localCommand hdst => simp only [hdst]
  | unknown hdst hunknown => simp only [hdst, if_neg hunknown]
  | dropped hdst hmem | scheduled hdst hmem => simp only [hdst, if_pos hmem]

/-- **Any submissions**: the same answers, and the hubs stay alike. -/
theorem Twin.sendAll (h : Twin hub s messages) (sends : List (PeerId × NetSend)) :
    (hub.sendAll sends).1 = (s.sendAll sends).1
    ∧ ∃ messages', Twin (hub.sendAll sends).2 (s.sendAll sends).2 messages' := by
  induction sends generalizing hub s messages with
  | nil => exact ⟨rfl, messages, h⟩
  | cons send sends ih =>
    obtain ⟨src, msg⟩ := send
    obtain ⟨hanswer, hnext⟩ := h.submitSend src msg
    obtain ⟨hanswers, htwin⟩ := ih hnext
    exact ⟨congrArg₂ List.cons hanswer hanswers, htwin⟩

omit [Rand R] in
/-- When its queue is empty, the simulation has delivered what the in-process hub has. -/
theorem Twin.pumpAll (h : Twin hub s messages) (p : PeerId) :
    s.pumpAll.received p = (hub.received p).filter NetEvent.isMessage := by
  have hpumped : Linked (fun _ => true) p (messages p) s.pumpAll :=
    popAll_induct (fun s s' step hpop hs => hs.popped hpop) s.heap.size (h.sim p)
  have hsplit := hpumped.split
  rw [inTransit, pumpAll_heap, arrived] at hsplit
  rw [h.hub.messages p, ← hsplit]
  simp

omit [Rand R] in
/-- Without fault rules, a new simulation is the twin of a new hub. -/
theorem new_twin {plan : FaultPlan R} (hnone : ∀ a b, plan.Spares a b) (simStart : Instant) :
    Twin {} (new plan simStart) fun _ => [] where
  hub := ⟨by simp [new], by simp, by simp [MemoryNetHub.received]⟩
  sim p := new_linked (fun a _ => hnone a p) simStart

/-- **The simulated transport without faults does what the in-process one does**, for any registered
peers and any submissions: every submission has the same answer, and, acknowledgements of chunks aside, a
drained simulation has put into every peer's queue what the in-process hub has put there except for the
announcements of reconstructed sessions, in the same order. -/
theorem sendAll_eq_memoryNet (seed : UInt64) (simStart : Instant) (peers : List PeerId)
    (sends : List (PeerId × NetSend)) :
    let mem := (({} : MemoryNetHub).endpoints peers).sendAll sends
    let sim := ((new (.new seed) simStart : SimState R).endpoints peers).sendAll sends
    mem.1 = sim.1
    ∧ ∀ p, (sim.2.pumpAll.received p).filter (!·.isAcknowledgement)
      = (mem.2.received p).filter NetEvent.isMessage := by
  have hnew := (new_twin (FaultPlan.new_spares (R := R) seed) simStart).endpoints peers
  obtain ⟨hanswers, messages, htwin⟩ := hnew.sendAll sends
  refine ⟨hanswers, fun p => ?_⟩
  rw [htwin.pumpAll, List.filter_filter]
  refine List.filter_congr fun event _ => ?_
  simp [NetEvent.isMessage]

section

attribute [local instance] noDraws

/-- A reconstructed session is announced to its opener, and a chunk is acknowledged to its sender, by the
in-process hub only. -/
theorem sendAll_ne_memoryNet :
    let mem := fun sends => (({} : MemoryNetHub).endpoints [1, 2]).sendAll sends
    let sim := fun sends => ((new (.new 0) 0 : SimState Unit).endpoints [1, 2]).sendAll sends
    let opened := [(1, .sessionOpen 2 "c" "m" [] []), (2, .sessionReconstructed "c" "m")]
    let sent := [(1, .chunk 2 "c" "m" 0 [7] 0)]
    ((mem opened).2.received 1 = [.peerReconstructed 2 "c" "m"]
      ∧ (sim opened).2.pumpAll.received 1 = [])
    ∧ ((mem sent).2.received 1 = [.chunkSendResult 2 "c" "m" 0 true]
      ∧ (sim sent).2.pumpAll.received 1 = []) := by
  decide +kernel

end

end SimState

end Ethp2p
