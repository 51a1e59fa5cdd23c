/-
# Ethp2p.Sim.State — the discrete-event core of the simulator (`ethp2p-sim/src/state.rs`, `clock.rs`).

All deliveries and clock wakeups flow through one queue keyed by `(due time, sequence number)`.
`popNext` takes the first entry, moves virtual time to it and routes it; `advanceTo` processes what is
due up to a time and then moves the clock there.

Virtual time is in nanoseconds since the start.  The sequence counter is a natural number: it counts the
messages, wakeups and engine steps of one simulation, which stay far below `2^64`.  A wakeup is named by
its own sequence number, and `fired` lists the wakeups whose sleepers were released.

The lemmas say, for each operation, what it does to the queue, the clock and the inboxes.
-/
import Ethp2p.Lib.EventQueue
import Ethp2p.Runtime.MemoryNet
import Ethp2p.Sim.Net

namespace Ethp2p

/-- What a single pump step did. -/
inductive PumpStep where
  | deliveredTo (peer : PeerId)
  | woke
deriving DecidableEq, Repr

/-- What is pending in the queue. -/
inductive Pending where
  | delivery (dst : PeerId) (event : NetEvent)
  | wakeup (id : Nat)
deriving DecidableEq, Repr

/-- Shared simulation state. -/
structure SimState (R : Type) where
  now : Duration
  nextSeq : Nat
  heap : EventQueue Pending
  simStart : Instant
  plan : FaultPlan R
  trace : List TraceEntry
  inboxes : BTreeMap PeerId Inbox
  fired : List Nat

namespace SimState

variable {R : Type} [Rand R]

omit [Rand R] in
/-- A simulation that starts at `simStart`. -/
def new (plan : FaultPlan R) (simStart : Instant) : SimState R where
  now := 0
  nextSeq := 0
  heap := .empty
  simStart := simStart
  plan := plan
  trace := []
  inboxes := ∅
  fired := []

omit [Rand R] in
/-- Virtual time as an instant. -/
def wallNow (s : SimState R) : Instant := s.simStart + s.now

omit [Rand R] in
/-- Register a peer and its inbound queue (`SimNetHub::endpoint`, `register_inbox`). -/
def endpoint (s : SimState R) (peer : PeerId) : SimState R :=
  { s with inboxes := s.inboxes.insert peer {} }

/-- Submit an outbound message: classify it, record it in the trace, and unless it is dropped schedule
its delivery. -/
def submitSend (src : PeerId) (s : SimState R) (msg : NetSend) : Except NetError Unit × SimState R :=
  match msg.destPeer, MsgKind.of msg, intoEvent src msg with
  | some dst, some kind, some event =>
    if dst ∉ s.inboxes then
      (.error (.peerNotFound dst), s)
    else
      let seq := s.nextSeq
      let now := s.now
      let (result, plan) := s.plan.classify src dst now msg
      match result with
      | .drop reason =>
        (.ok (), { s with
          nextSeq := seq + 1
          plan := plan
          trace := s.trace ++ [⟨now, seq, .send src dst kind (.dropped reason)⟩] })
      | .deliver delay =>
        let deliverAt := now + delay
        (.ok (), { s with
          nextSeq := seq + 1
          plan := plan
          trace := s.trace ++ [⟨now, seq, .send src dst kind (.delivered deliverAt)⟩]
          heap := s.heap.push ⟨deliverAt, seq, .delivery dst event⟩ })
  | _, _, _ => (.ok (), s)

omit [Rand R] in
/-- Register a clock wakeup at a virtual time. -/
def scheduleWakeup (s : SimState R) (time : Duration) : SimState R :=
  { s with
    nextSeq := s.nextSeq + 1
    heap := s.heap.push ⟨time, s.nextSeq, .wakeup s.nextSeq⟩ }

omit [Rand R] in
/-- `SimClock::sleep`: a wakeup after a length of virtual time. -/
def sleep (s : SimState R) (d : Duration) : SimState R := s.scheduleWakeup (s.now + d)

omit [Rand R] in
/-- Pop the earliest entry, moving virtual time to it: a delivery goes into the destination's queue, a
wakeup fires its sleeper. -/
def popNext (s : SimState R) : Option (PumpStep × SimState R) :=
  match s.heap.pop with
  | none => none
  | some (entry, heap) =>
    let s := { s with now := entry.due, heap := heap }
    match entry.pending with
    | .delivery dst event =>
      match s.inboxes[dst]? with
      | some inbox =>
        some (.deliveredTo dst, { s with inboxes := s.inboxes.insert dst (inbox.send event).2 })
      | none => some (.deliveredTo dst, s)
    | .wakeup id => some (.woke, { s with fired := s.fired ++ [id] })

omit [Rand R] in
/-- Pop entries as long as the first one is due at or before `target`; `fuel` bounds their number. -/
def popDue (target : Duration) : Nat → SimState R → SimState R
  | 0, s => s
  | fuel + 1, s =>
    match s.heap.entries.head? with
    | none => s
    | some entry =>
      if entry.due ≤ target then
        match s.popNext with
        | some (_, s) => popDue target fuel s
        | none => s
      else
        s

omit [Rand R] in
/-- Process every entry due at or before `target`, then set virtual time to it. -/
def advanceTo (s : SimState R) (target : Duration) : SimState R :=
  let s := popDue target s.heap.size s
  if target > s.now then { s with now := target } else s

omit [Rand R] in
/-- Pop every entry (`SimNetHub::pump_all`); `fuel` bounds their number. -/
def popAll : Nat → SimState R → SimState R
  | 0, s => s
  | fuel + 1, s =>
    match s.popNext with
    | some (_, s) => popAll fuel s
    | none => s

omit [Rand R] in
/-- Drain the queue completely. -/
def pumpAll (s : SimState R) : SimState R := popAll s.heap.size s

omit [Rand R] in
/-- Record that the runner steps an engine. -/
def recordEngineStep (s : SimState R) (peer : PeerId) : SimState R :=
  { s with
    nextSeq := s.nextSeq + 1
    trace := s.trace ++ [⟨s.now, s.nextSeq, .engineStep peer⟩] }

omit [Rand R] in
/-- What has been sent into a peer's queue. -/
def received (s : SimState R) (peer : PeerId) : List NetEvent :=
  (s.inboxes[peer]?.map (·.events)).getD []

/-! ## What each operation does -/

/-- A submission is refused, or accepted and dropped, or accepted and scheduled. -/
inductive Submitted (src : PeerId) (msg : NetSend) (s : SimState R) :
    Except NetError Unit × SimState R → Prop
  | localCommand (h : msg.destPeer = none) : Submitted src msg s (.ok (), s)
  | unknown {dst : PeerId} (hdst : msg.destPeer = some dst) (h : dst ∉ s.inboxes) :
      Submitted src msg s (.error (.peerNotFound dst), s)
  | dropped {dst : PeerId} {reason : DropReason} {trace : List TraceEntry}
      (hdst : msg.destPeer = some dst) (h : dst ∈ s.inboxes)
      (hdrop : (s.plan.classify src dst s.now msg).1 = .drop reason) :
      Submitted src msg s (.ok (), { s with
        nextSeq := s.nextSeq + 1
        plan := (s.plan.classify src dst s.now msg).2
        trace })
  | scheduled {dst : PeerId} {event : NetEvent} {delay : Duration} {trace : List TraceEntry}
      (hdst : msg.destPeer = some dst) (h : dst ∈ s.inboxes) (hevent : intoEvent src msg = some event)
      (hdeliver : (s.plan.classify src dst s.now msg).1 = .deliver delay) :
      Submitted src msg s (.ok (), { s with
        nextSeq := s.nextSeq + 1
        plan := (s.plan.classify src dst s.now msg).2
        trace
        heap := s.heap.push ⟨s.now + delay, s.nextSeq, .delivery dst event⟩ })

/-- A message with a destination has a kind and an event. -/
theorem destPeer_cases (src : PeerId) (msg : NetSend) : msg.destPeer = none
    ∨ ∃ dst kind event, msg.destPeer = some dst ∧ MsgKind.of msg = some kind
      ∧ intoEvent src msg = some event := by
  cases msg
  case sessionReconstructed => exact .inl rfl
  all_goals exact .inr ⟨_, _, _, rfl, rfl, rfl⟩

/-- **What becomes of a message that is submitted**, by the plan. -/
theorem submitSend_cases (src : PeerId) (s : SimState R) (msg : NetSend) :
    Submitted src msg s (s.submitSend src msg) := by
  unfold submitSend
  rcases destPeer_cases src msg with hnone | ⟨dst, kind, event, hdst, hkind, hevent⟩
  · simp only [hnone]
    exact .localCommand hnone
  · simp only [hdst, hkind, hevent]
    split
    case isTrue h => exact .unknown hdst h
    case isFalse h =>
      have hmem : dst ∈ s.inboxes := not_not.mp h
      split
      case h_1 reason hdrop => exact .dropped hdst hmem hdrop
      case h_2 delay hdeliver => exact .scheduled hdst hmem hevent hdeliver

omit [Rand R] in
/-- What popping one entry does. -/
inductive Popped (s : SimState R) : PumpStep → SimState R → Prop
  | delivered {entry : Event Pending} {heap : EventQueue Pending} {dst : PeerId} {event : NetEvent}
      {inbox : Inbox} (hpop : s.heap.pop = some (entry, heap))
      (hentry : entry.pending = .delivery dst event) (hinbox : s.inboxes[dst]? = some inbox) :
      Popped s (.deliveredTo dst) { s with
        now := entry.due, heap, inboxes := s.inboxes.insert dst (inbox.send event).2 }
  | lost {entry : Event Pending} {heap : EventQueue Pending} {dst : PeerId} {event : NetEvent}
      (hpop : s.heap.pop = some (entry, heap)) (hentry : entry.pending = .delivery dst event)
      (hinbox : s.inboxes[dst]? = none) :
      Popped s (.deliveredTo dst) { s with now := entry.due, heap }
  | woke {entry : Event Pending} {heap : EventQueue Pending} {id : Nat}
      (hpop : s.heap.pop = some (entry, heap)) (hentry : entry.pending = .wakeup id) :
      Popped s .woke { s with now := entry.due, heap, fired := s.fired ++ [id] }

omit [Rand R] in
/-- **What the pump does with the next event**, by its kind. -/
theorem popNext_eq_some {s s' : SimState R} {step : PumpStep} (h : s.popNext = some (step, s')) :
    Popped s step s' := by
  unfold popNext at h
  split at h
  case h_1 => cases h
  case h_2 entry heap hpop =>
    dsimp only at h
    split at h
    case h_1 dst event hentry =>
      split at h
      case h_1 inbox hinbox =>
        cases h
        exact .delivered hpop hentry hinbox
      case h_2 hinbox =>
        cases h
        exact .lost hpop hentry hinbox
    case h_2 id hentry =>
      cases h
      exact .woke hpop hentry

omit [Rand R] in
/-- The pump stops when nothing is left. -/
theorem popNext_eq_none {s : SimState R} : s.popNext = none ↔ s.heap.entries = [] := by
  rw [← EventQueue.pop_eq_none]
  unfold popNext
  split
  case h_1 hpop => simp [hpop]
  case h_2 entry heap hpop =>
    rw [hpop]
    dsimp only
    split
    · split <;> simp
    · simp

omit [Rand R] in
/-- An event is popped at the time it is due. -/
theorem Popped.heap {s s' : SimState R} {step : PumpStep} (h : Popped s step s') :
    ∃ entry, s.heap.pop = some (entry, s'.heap) ∧ s'.now = entry.due ∧ s'.nextSeq = s.nextSeq
      ∧ s'.plan = s.plan := by
  cases h with
  | delivered hpop | lost hpop | woke hpop => exact ⟨_, hpop, rfl, rfl, rfl⟩

omit [Rand R] in
theorem Popped.size {s s' : SimState R} {step : PumpStep} (h : Popped s step s') :
    s.heap.size = s'.heap.size + 1 := by
  obtain ⟨entry, hpop, -⟩ := h.heap
  exact EventQueue.size_pop hpop

omit [Rand R] in
/-- What a single pop keeps, popping every due entry keeps. -/
theorem popDue_induct {Q : SimState R → Prop} (hpop : ∀ s s' step, Popped s step s' → Q s → Q s')
    (target : Duration) (fuel : Nat) {s : SimState R} (hs : Q s) : Q (popDue target fuel s) := by
  induction fuel generalizing s with
  | zero => exact hs
  | succ fuel ih =>
    unfold popDue
    split
    · exact hs
    · split
      · split
        case h_1 step s' hnext => exact ih (hpop s s' step (popNext_eq_some hnext) hs)
        case h_2 => exact hs
      · exact hs

omit [Rand R] in
/-- Enough fuel leaves no due entry. -/
theorem popDue_done (target : Duration) (fuel : Nat) {s : SimState R} (hfuel : s.heap.size ≤ fuel) :
    ∀ entry ∈ (popDue target fuel s).heap.entries, target < entry.due := by
  induction fuel generalizing s with
  | zero =>
    have hempty : s.heap.entries = [] := List.eq_nil_of_length_eq_zero (Nat.le_zero.mp hfuel)
    simp [popDue, hempty]
  | succ fuel ih =>
    unfold popDue
    split
    case h_1 hhead => simp [List.head?_eq_none_iff.mp hhead]
    case h_2 first hhead =>
      split
      case isTrue =>
        split
        case h_1 step s' hnext =>
          have hsize := (popNext_eq_some hnext).size
          exact ih (by omega)
        case h_2 hnone => simp [popNext_eq_none.mp hnone]
      case isFalse hdue =>
        obtain ⟨rest, hrest⟩ := List.head?_eq_some_iff.mp hhead
        have hsorted := s.heap.sorted
        rw [hrest, List.pairwise_cons] at hsorted
        intro entry hentry
        rw [hrest] at hentry
        rcases List.mem_cons.mp hentry with rfl | hentry
        · exact Nat.lt_of_not_le hdue
        · exact Nat.lt_of_lt_of_le (Nat.lt_of_not_le hdue) (hsorted.1 entry hentry).due_le

omit [Rand R] in
/-- What a single pop keeps, draining the queue keeps. -/
theorem popAll_induct {Q : SimState R → Prop} (hpop : ∀ s s' step, Popped s step s' → Q s → Q s')
    (fuel : Nat) {s : SimState R} (hs : Q s) : Q (popAll fuel s) := by
  induction fuel generalizing s with
  | zero => exact hs
  | succ fuel ih =>
    unfold popAll
    split
    case h_1 step s' hnext => exact ih (hpop s s' step (popNext_eq_some hnext) hs)
    case h_2 => exact hs

omit [Rand R] in
/-- Pumping everything leaves nothing. -/
theorem pumpAll_heap (s : SimState R) : s.pumpAll.heap.entries = [] := by
  have hfuel : ∀ (fuel : Nat) (s : SimState R), s.heap.size ≤ fuel →
      (popAll fuel s).heap.entries = [] := by
    intro fuel
    induction fuel with
    | zero => exact fun s hs => List.eq_nil_of_length_eq_zero (Nat.le_zero.mp hs)
    | succ fuel ih =>
      intro s hs
      unfold popAll
      split
      case h_1 step s' hnext =>
        have hsize := (popNext_eq_some hnext).size
        exact ih s' (by omega)
      case h_2 hnone => exact popNext_eq_none.mp hnone
  exact hfuel _ s le_rfl

end SimState

end Ethp2p
