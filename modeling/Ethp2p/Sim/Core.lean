/-
# Ethp2p.Sim.Core — virtual time and the order of events.

Everything the simulator does goes through four operations that move the clock or the queue: submitting a
message, scheduling a wakeup, popping an entry and advancing the clock, which pops what is due.  `Core` is
what holds between any two of them: nothing is due before now, numbers are given out once, the queue is
strictly ordered by due time and number, and the trace is written in the order of time and number.

An operation either ISSUES a number (`Issued`), for a trace entry, a queue entry or both, or it pops, or it
moves the clock; `Core` is kept by each.  `pops` are the entries an operation pops, each with the clock after
that pop: a wakeup is released by the pop of its own entry, at its own time, and never again (`run_core`).
-/
import Ethp2p.Sim.Links

namespace Ethp2p

/-- Strictly earlier, or at the same time with a smaller number. -/
def Event.Precedes {α : Type} (a b : Event α) : Prop := a.due < b.due ∨ a.due = b.due ∧ a.seq < b.seq

/-- The wakeup an entry fires. -/
def Event.wakeup? (entry : Event Pending) : Option Nat :=
  match entry.pending with
  | .delivery _ _ => none
  | .wakeup id => some id

namespace SimState

variable {R : Type} [Rand R] {s s' : SimState R}

/-! ## Operations and their pops -/

/-- An operation on the discrete-event core. -/
inductive CoreOp where
  | op (op : Op)
  | engineStep (peer : PeerId)

/-- Do one operation. -/
def step (s : SimState R) : CoreOp → SimState R
  | .op op => s.apply op
  | .engineStep peer => s.recordEngineStep peer

/-- Do one operation after the other. -/
def runCore (s : SimState R) (ops : List CoreOp) : SimState R := ops.foldl step s

omit [Rand R] in
/-- The pops of `popDue`: the clock after each, and the entry. -/
def duePops (target : Duration) : Nat → SimState R → List (Duration × Event Pending)
  | 0, _ => []
  | fuel + 1, s =>
    match s.heap.entries.head? with
    | none => []
    | some entry =>
      if entry.due ≤ target then
        match s.popNext with
        | some (_, s) => (s.now, entry) :: duePops target fuel s
        | none => []
      else
        []

omit [Rand R] in
/-- The pops of an operation: the clock after each, and the entry. -/
def pops (s : SimState R) : CoreOp → List (Duration × Event Pending)
  | .op .pop =>
    match s.heap.entries.head?, s.popNext with
    | some entry, some (_, s) => [(s.now, entry)]
    | _, _ => []
  | .op (.advanceTo target) => duePops target s.heap.size s
  | .op (.endpoint _) | .op (.submit _ _) | .op (.sleep _) | .engineStep _ => []

/-! ## The invariant -/

/-- **The discrete-event core.**  Nothing is due before now; the queue is strictly ordered by due time and
number, and its numbers are different; the trace is strictly ordered by number and ordered by time; an entry of
the queue has the number of a trace entry only if it is the delivery of that message.  A wakeup that fired did
so once, and is not in the queue. -/
structure Core (s : SimState R) : Prop extends s.Timed where
  sorted : s.heap.entries.Pairwise Event.Precedes
  distinct : (s.heap.entries.map (·.seq)).Nodup
  trace : s.trace.Pairwise fun a b => a.seq < b.seq ∧ a.time ≤ b.time
  past : ∀ t ∈ s.trace, t.seq < s.nextSeq ∧ t.time ≤ s.now
  shared : ∀ entry ∈ s.heap.entries, ∀ t ∈ s.trace, entry.seq = t.seq → ∃ src dst kind event,
    t.kind = .send src dst kind (.delivered entry.due) ∧ entry.pending = .delivery dst event
  named : ∀ entry ∈ s.heap.entries, ∀ id, entry.pending = .wakeup id → id = entry.seq
  once : s.fired.Nodup
  gone : ∀ id ∈ s.fired, id < s.nextSeq ∧ ∀ entry ∈ s.heap.entries, entry.seq ≠ id

/-- What submitting, sleeping and stepping an engine do to the clock, the queue and the trace. -/
inductive Issued (s : SimState R) : SimState R → Prop
  | nothing {inboxes : BTreeMap PeerId Inbox} : Issued s { s with inboxes }
  | recorded {plan : FaultPlan R} {kind : TraceKind} :
    Issued s { s with
      nextSeq := s.nextSeq + 1, plan, trace := s.trace ++ [⟨s.now, s.nextSeq, kind⟩] }
  | scheduled {plan : FaultPlan R} {src dst : PeerId} {kind : MsgKind} {event : NetEvent} {due : Duration}
      (hdue : s.now ≤ due) :
    Issued s { s with
      nextSeq := s.nextSeq + 1, plan
      trace := s.trace ++ [⟨s.now, s.nextSeq, .send src dst kind (.delivered due)⟩]
      heap := s.heap.push ⟨due, s.nextSeq, .delivery dst event⟩ }
  | slept {due : Duration} (hdue : s.now ≤ due) :
    Issued s { s with
      nextSeq := s.nextSeq + 1, heap := s.heap.push ⟨due, s.nextSeq, .wakeup s.nextSeq⟩ }

/-- A message that is submitted is recorded and, if it is not dropped, put into the queue. -/
theorem submitSend_issued (s : SimState R) (src : PeerId) (msg : NetSend) :
    Issued s (s.submitSend src msg).2 := by
  unfold submitSend
  split
  case h_1 dst kind event hdst hkind hevent =>
    split
    case isTrue => exact .nothing
    case isFalse =>
      dsimp only
      split
      case h_1 reason hdrop => exact .recorded
      case h_2 delay hdeliver => exact .scheduled (Nat.le_add_right _ _)
  case h_2 => exact .nothing

/-! ## Every operation keeps it -/

section

omit [Rand R]

/-- A queue whose numbers are different is strictly ordered. -/
theorem precedes_of_distinct (q : EventQueue Pending) (h : (q.entries.map (·.seq)).Nodup) :
    q.entries.Pairwise Event.Precedes := by
  have hseq : q.entries.Pairwise fun a b => a.seq ≠ b.seq := List.pairwise_map.mp h
  refine q.sorted.imp₂ (fun a b hbefore hne => ?_) hseq
  unfold Event.Before at hbefore
  unfold Event.Precedes
  omega

/-- A new number keeps the numbers of the queue distinct. -/
theorem distinct_push {q : EventQueue Pending} {e : Event Pending}
    (hnew : ∀ x ∈ q.entries, x.seq ≠ e.seq) (h : (q.entries.map (·.seq)).Nodup) :
    ((q.push e).entries.map (·.seq)).Nodup := by
  have hperm : (q.push e).entries.Perm (e :: q.entries) := List.perm_orderedInsert _ _ _
  rw [(hperm.map _).nodup_iff, List.map_cons, List.nodup_cons, List.mem_map]
  refine ⟨?_, h⟩
  rintro ⟨x, hx, heq⟩
  exact hnew x hx heq

/-- A new trace entry goes behind all others. -/
theorem Core.trace_append (h : s.Core) (kind : TraceKind) :
    (s.trace ++ [TraceEntry.mk s.now s.nextSeq kind]).Pairwise fun a b => a.seq < b.seq ∧ a.time ≤ b.time := by
  rw [List.pairwise_append]
  refine ⟨h.trace, List.pairwise_singleton _ _, fun a ha b hb => ?_⟩
  obtain rfl := List.mem_singleton.mp hb
  exact h.past a ha

theorem Core.past_append (h : s.Core) (kind : TraceKind) :
    ∀ t ∈ s.trace ++ [TraceEntry.mk s.now s.nextSeq kind], t.seq < s.nextSeq + 1 ∧ t.time ≤ s.now := by
  intro t ht
  rcases List.mem_append.mp ht with ht | ht
  · exact ⟨Nat.lt_succ_of_lt (h.past t ht).1, (h.past t ht).2⟩
  · obtain rfl := List.mem_singleton.mp ht
    exact ⟨Nat.lt_succ_self _, le_rfl⟩

/-- A new queue entry, with or without its trace entry. -/
theorem Core.push (h : s.Core) {due : Duration} (hdue : s.now ≤ due) {pending : Pending}
    {plan : FaultPlan R} {trace : List TraceEntry}
    (hnamed : ∀ id, pending = .wakeup id → id = s.nextSeq)
    (htrace : trace.Pairwise fun a b => a.seq < b.seq ∧ a.time ≤ b.time)
    (hpast : ∀ t ∈ trace, t.seq < s.nextSeq + 1 ∧ t.time ≤ s.now)
    (hold : ∀ t ∈ trace, t ∈ s.trace ∨ t.seq = s.nextSeq)
    (hshared : ∀ t ∈ trace, t.seq = s.nextSeq → ∃ src dst kind event,
      t.kind = .send src dst kind (.delivered due) ∧ pending = .delivery dst event) :
    Core { s with
      nextSeq := s.nextSeq + 1, plan, trace, heap := s.heap.push ⟨due, s.nextSeq, pending⟩ } := by
  have hdistinct : ((s.heap.push ⟨due, s.nextSeq, pending⟩).entries.map (·.seq)).Nodup :=
    distinct_push (fun x hx => (h.seq x hx).ne) h.distinct
  refine ⟨h.toTimed.push hdue, precedes_of_distinct _ hdistinct, hdistinct, htrace, hpast,
    fun entry hentry t ht hseq => ?_, fun entry hentry id hid => ?_, h.once, fun id hid => ?_⟩
  · rcases EventQueue.mem_push.mp hentry with rfl | hentry
    · exact hshared t ht hseq.symm
    · rcases hold t ht with ht | ht
      · exact h.shared entry hentry t ht hseq
      · exact absurd (hseq.trans ht) (h.seq entry hentry).ne
  · rcases EventQueue.mem_push.mp hentry with rfl | hentry
    · exact hnamed id hid
    · exact h.named entry hentry id hid
  · obtain ⟨hlt, hnot⟩ := h.gone id hid
    refine ⟨Nat.lt_succ_of_lt hlt, fun entry hentry => ?_⟩
    rcases EventQueue.mem_push.mp hentry with rfl | hentry
    · exact hlt.ne'
    · exact hnot entry hentry

/-- **Whatever is issued** keeps the core in order. -/
theorem Issued.core (h : Issued s s') (hcore : s.Core) : s'.Core := by
  cases h with
  | nothing => exact { hcore with }
  | @recorded plan kind =>
    refine { hcore with
      seq := fun entry hentry => Nat.lt_succ_of_lt (hcore.seq entry hentry)
      trace := hcore.trace_append kind
      past := hcore.past_append kind
      shared := fun entry hentry t ht hseq => ?_
      gone := fun id hid => ⟨Nat.lt_succ_of_lt (hcore.gone id hid).1, (hcore.gone id hid).2⟩ }
    rcases List.mem_append.mp ht with ht | ht
    · exact hcore.shared entry hentry t ht hseq
    · obtain rfl := List.mem_singleton.mp ht
      exact absurd hseq (hcore.seq entry hentry).ne
  | @scheduled plan src dst kind event due hdue =>
    refine hcore.push hdue (by rintro id ⟨⟩) (hcore.trace_append _) (hcore.past_append _)
      (fun t ht => ?_) (fun t ht hseq => ?_)
    · rcases List.mem_append.mp ht with ht | ht
      · exact .inl ht
      · obtain rfl := List.mem_singleton.mp ht
        exact .inr rfl
    · rcases List.mem_append.mp ht with ht | ht
      · exact absurd hseq (hcore.past t ht).1.ne
      · obtain rfl := List.mem_singleton.mp ht
        exact ⟨src, dst, kind, event, rfl, rfl⟩
  | @slept due hdue =>
    refine hcore.push hdue (by rintro id ⟨⟩; rfl) hcore.trace
      (fun t ht => ⟨Nat.lt_succ_of_lt (hcore.past t ht).1, (hcore.past t ht).2⟩)
      (fun t ht => .inl ht) (fun t ht hseq => absurd hseq (hcore.past t ht).1.ne)

theorem Issued.now_eq (h : Issued s s') : s'.now = s.now := by
  cases h <;> rfl

theorem Issued.fired_eq (h : Issued s s') : s'.fired = s.fired := by
  cases h <;> rfl

/-- Nothing is taken out of the queue but by the pump. -/
theorem Issued.mem_entries (h : Issued s s') {entry : Event Pending} (hentry : entry ∈ s.heap.entries) :
    entry ∈ s'.heap.entries := by
  cases h with
  | nothing | recorded => exact hentry
  | scheduled | slept => exact EventQueue.mem_push.mpr (.inr hentry)

/-- A pop takes the first entry, moves the clock to it, and fires it if it is a wakeup. -/
theorem Popped.first {step : PumpStep} (h : Popped s step s') :
    ∃ entry, s.heap.entries = entry :: s'.heap.entries ∧ s'.now = entry.due
      ∧ s'.nextSeq = s.nextSeq ∧ s'.trace = s.trace ∧ s'.fired = s.fired ++ entry.wakeup?.toList := by
  cases h with
  | delivered hpop hentry | lost hpop hentry =>
    exact ⟨_, EventQueue.pop_entries hpop, rfl, rfl, rfl, by simp [Event.wakeup?, hentry]⟩
  | woke hpop hentry =>
    exact ⟨_, EventQueue.pop_entries hpop, rfl, rfl, rfl, by simp [Event.wakeup?, hentry]⟩

/-- **Whatever the pump pops** keeps the core in order. -/
theorem Popped.core {step : PumpStep} (h : Popped s step s') (hcore : s.Core) : s'.Core := by
  obtain ⟨htimed, hnow⟩ := hcore.toTimed.popped h
  obtain ⟨entry, hentries, -, hseq, htrace, hfired⟩ := h.first
  have hmem : ∀ x ∈ s'.heap.entries, x ∈ s.heap.entries := fun x hx =>
    hentries ▸ List.mem_cons_of_mem entry hx
  have hfirst : entry ∈ s.heap.entries := hentries ▸ List.mem_cons_self
  have hdistinct := hcore.distinct
  rw [hentries, List.map_cons, List.nodup_cons] at hdistinct
  have hother : ∀ x ∈ s'.heap.entries, x.seq ≠ entry.seq := fun x hx heq =>
    hdistinct.1 (List.mem_map.mpr ⟨x, hx, heq⟩)
  -- the popped entry wakes the sleep whose number it carries, and no other
  have hfires : ∀ id ∈ entry.wakeup?, id = entry.seq := by
    intro id hid
    refine hcore.named entry hfirst id ?_
    unfold Event.wakeup? at hid
    split at hid
    case h_1 => cases hid
    case h_2 id' hpending => rw [hpending, Option.some.inj hid]
  refine { htimed with
    sorted := precedes_of_distinct _ hdistinct.2
    distinct := hdistinct.2
    trace := htrace ▸ hcore.trace
    past := fun t ht => ?_
    shared := fun x hx t ht => hcore.shared x (hmem x hx) t (htrace ▸ ht)
    named := fun x hx => hcore.named x (hmem x hx)
    once := ?_
    gone := fun id hid => ?_ }
  · rw [htrace] at ht
    obtain ⟨hlt, hle⟩ := hcore.past t ht
    exact ⟨hseq ▸ hlt, hle.trans hnow⟩
  -- what fired before has left the heap, so this one had not fired
  · rw [hfired, List.nodup_append]
    refine ⟨hcore.once, Option.toList_nodup _, fun a ha b hb heq => ?_⟩
    rw [Option.mem_toList] at hb
    exact (hcore.gone a ha).2 entry hfirst (heq.trans (hfires b hb)).symm
  · rw [hfired, List.mem_append] at hid
    rcases hid with hid | hid
    · obtain ⟨hlt, hnot⟩ := hcore.gone id hid
      exact ⟨hseq ▸ hlt, fun x hx => hnot x (hmem x hx)⟩
    · rw [Option.mem_toList] at hid
      obtain rfl := hfires id hid
      exact ⟨hseq ▸ hcore.seq entry hfirst, hother⟩

/-- Moving the clock is safe when nothing is due before. -/
theorem Core.setNow (h : s.Core) {target : Duration} (hlater : s.now ≤ target)
    (hdue : ∀ entry ∈ s.heap.entries, target ≤ entry.due) : Core { s with now := target } :=
  { h with
    due := hdue
    past := fun t ht => ⟨(h.past t ht).1, (h.past t ht).2.trans hlater⟩ }

/-- Time goes on with the core in order. -/
theorem Core.advanceTo (h : s.Core) (target : Duration) : (s.advanceTo target).Core := by
  have hpopped := popDue_induct (fun s s' step hpop hs => hpop.core hs) target s.heap.size h
  have hdone := popDue_done target s.heap.size (s := s) le_rfl
  unfold SimState.advanceTo
  dsimp only
  split
  case isTrue hlater => exact hpopped.setNow hlater.le fun entry hentry => (hdone entry hentry).le
  case isFalse => exact hpopped

/-- Popping what is due does not set the time back. -/
theorem popDue_now (h : s.Core) (target : Duration) (fuel : Nat) : s.now ≤ (popDue target fuel s).now :=
  (popDue_induct (Q := fun s' => s'.Core ∧ s.now ≤ s'.now)
    (fun _ _ _ hpop hs' => ⟨hpop.core hs'.1, hs'.2.trans (hs'.1.toTimed.popped hpop).2⟩)
    target fuel ⟨h, le_rfl⟩).2

/-- Popping what is due does not move the clock beyond the target. -/
theorem popDue_now_le {target : Duration} (fuel : Nat) (h : s.now ≤ target) :
    (popDue target fuel s).now ≤ target := by
  induction fuel generalizing s with
  | zero => exact h
  | succ fuel ih =>
    unfold popDue
    split
    case h_1 => exact h
    case h_2 first hhead =>
      split
      case isTrue hdue =>
        split
        case h_1 step s' hnext =>
          obtain ⟨entry, hentries, hnow, -⟩ := (popNext_eq_some hnext).first
          rw [hentries, List.head?_cons] at hhead
          obtain rfl := Option.some.inj hhead
          exact ih (hnow ▸ hdue)
        case h_2 => exact h
      case isFalse => exact h

/-- **After advancing to a later time** the clock is there, and nothing is due. -/
theorem advanceTo_done (s : SimState R) {target : Duration} (h : s.now ≤ target) :
    (s.advanceTo target).now = target ∧ ∀ entry ∈ (s.advanceTo target).heap.entries, target < entry.due := by
  have hle := popDue_now_le s.heap.size h
  have hdone := popDue_done target s.heap.size (s := s) le_rfl
  unfold SimState.advanceTo
  dsimp only
  split
  case isTrue => exact ⟨rfl, hdone⟩
  case isFalse hlate => exact ⟨le_antisymm hle (Nat.le_of_not_lt hlate), hdone⟩

/-- **What `popDue` pops** is the front of the queue, each entry at its own time. -/
theorem duePops_spec (target : Duration) (fuel : Nat) (s : SimState R) :
    s.heap.entries = (duePops target fuel s).map (·.2) ++ (popDue target fuel s).heap.entries
    ∧ (∀ p ∈ duePops target fuel s, p.1 = p.2.due)
    ∧ (popDue target fuel s).fired = s.fired ++ (duePops target fuel s).filterMap (·.2.wakeup?) := by
  -- each turn takes the first entry, which is due, and the rest is the induction
  induction fuel generalizing s with
  | zero => simp [duePops, popDue]
  | succ fuel ih =>
    unfold duePops popDue
    cases hhead : s.heap.entries.head? with
    | none => simp
    | some first =>
      dsimp only
      by_cases hdue : first.due ≤ target
      case neg => simp [hdue]
      case pos =>
        rw [if_pos hdue, if_pos hdue]
        cases hnext : s.popNext with
        | none => simp
        | some next =>
          obtain ⟨step, s'⟩ := next
          obtain ⟨entry, hentries, hnow, -, -, hfired⟩ := (popNext_eq_some hnext).first
          obtain ⟨hsplit, hclock, hfires⟩ := ih s'
          rw [hentries, List.head?_cons] at hhead
          obtain rfl := Option.some.inj hhead
          refine ⟨?_, fun p hp => ?_, ?_⟩
          · rw [hentries, List.map_cons, List.cons_append, ← hsplit]
          · rcases List.mem_cons.mp hp with rfl | hp
            · exact hnow
            · exact hclock p hp
          · rw [hfires, hfired, List.append_assoc, List.filterMap_cons]
            cases entry.wakeup? <;> rfl

end

/-! ## Runs -/

/-- An operation issues a number or nothing, or it pops, or it advances the clock. -/
theorem step_cases (s : SimState R) (op : CoreOp) :
    Issued s (s.step op) ∧ s.pops op = [] ∨ op = .op .pop ∨ ∃ target, op = .op (.advanceTo target) := by
  match op with
  | .op (.endpoint peer) => exact .inl ⟨.nothing, rfl⟩
  | .op (.submit src msg) => exact .inl ⟨submitSend_issued s src msg, rfl⟩
  | .op (.sleep d) => exact .inl ⟨.slept (Nat.le_add_right _ _), rfl⟩
  | .op .pop => exact .inr (.inl rfl)
  | .op (.advanceTo target) => exact .inr (.inr ⟨target, rfl⟩)
  | .engineStep peer => exact .inl ⟨.recorded, rfl⟩

/-- **One operation** keeps the core and does not turn the clock back. -/
theorem Core.step (h : s.Core) (op : CoreOp) : (s.step op).Core ∧ s.now ≤ (s.step op).now := by
  rcases s.step_cases op with ⟨hissued, -⟩ | rfl | ⟨target, rfl⟩
  · exact ⟨hissued.core h, hissued.now_eq.ge⟩
  · show ((s.popNext.map (·.2)).getD s).Core ∧ s.now ≤ ((s.popNext.map (·.2)).getD s).now
    cases hnext : s.popNext with
    | none => exact ⟨h, le_rfl⟩
    | some next =>
      have hpop := popNext_eq_some hnext
      exact ⟨hpop.core h, (h.toTimed.popped hpop).2⟩
  · refine ⟨h.advanceTo target, (popDue_now h target s.heap.size).trans ?_⟩
    show _ ≤ (s.advanceTo target).now
    unfold SimState.advanceTo
    dsimp only
    split
    case isTrue hlater => exact hlater.le
    case isFalse => exact le_rfl

/-- **The pops of an operation** that does not issue: the front of the queue, each entry at its own time, and
the wakeups among them are what fires. -/
theorem step_pops (s : SimState R) (op : CoreOp) :
    Issued s (s.step op) ∧ s.pops op = []
    ∨ s.heap.entries = (s.pops op).map (·.2) ++ (s.step op).heap.entries
      ∧ (∀ p ∈ s.pops op, p.1 = p.2.due)
      ∧ (s.step op).fired = s.fired ++ (s.pops op).filterMap (·.2.wakeup?) := by
  -- only `pop` and `advanceTo` take entries; the others append theirs
  rcases s.step_cases op with hissued | rfl | ⟨target, rfl⟩
  · exact .inl hissued
  · right
    show s.heap.entries
        = (s.pops (.op .pop)).map (·.2) ++ ((s.popNext.map (·.2)).getD s).heap.entries
      ∧ _ ∧ ((s.popNext.map (·.2)).getD s).fired = _
    cases hnext : s.popNext with
    | none => simp [pops, hnext]
    | some next =>
      obtain ⟨step, s'⟩ := next
      obtain ⟨entry, hentries, hnow, -, -, hfired⟩ := (popNext_eq_some hnext).first
      simp only [pops, hnext, hentries, List.head?_cons, Option.map_some, Option.getD_some, hfired, hnow]
      refine ⟨rfl, by simp, ?_⟩
      rw [List.filterMap_cons, List.filterMap_nil]
      cases entry.wakeup? <;> rfl
  · right
    obtain ⟨hsplit, hclock, hfires⟩ := duePops_spec target s.heap.size s
    have hkept : (s.advanceTo target).heap = (popDue target s.heap.size s).heap
        ∧ (s.advanceTo target).fired = (popDue target s.heap.size s).fired := by
      unfold SimState.advanceTo
      dsimp only
      split <;> exact ⟨rfl, rfl⟩
    refine ⟨?_, hclock, ?_⟩
    · show _ = _ ++ (s.advanceTo target).heap.entries
      rw [hkept.1]
      exact hsplit
    · show (s.advanceTo target).fired = _
      rw [hkept.2]
      exact hfires

omit [Rand R] in
/-- A new simulation is in order. -/
theorem new_core (plan : FaultPlan R) (simStart : Instant) : (new plan simStart).Core := by
  constructor <;> simp [new]
  constructor <;> simp

/-- The core is in order after every sequence of operations. -/
theorem Core.runCore (h : s.Core) (ops : List CoreOp) : (s.runCore ops).Core := by
  induction ops generalizing s with
  | nil => exact h
  | cons op ops ih => exact ih (h.step op).1

omit [Rand R] in
/-- A scheduled wakeup is in the queue or has fired. -/
def Awaits (s : SimState R) (time : Duration) (id : Nat) : Prop :=
  ⟨time, id, .wakeup id⟩ ∈ s.heap.entries ∨ id ∈ s.fired

/-- A timer that is awaited stays in the queue, with its time, until it fires. -/
theorem Awaits.step {time : Duration} {id : Nat} (h : s.Awaits time id) (op : CoreOp) :
    (s.step op).Awaits time id := by
  rcases s.step_pops op with ⟨hissued, -⟩ | ⟨hsplit, -, hfires⟩
  · exact h.imp hissued.mem_entries fun hfired => hissued.fired_eq ▸ hfired
  · rcases h with hwaits | hfired
    · rw [hsplit, List.mem_append, List.mem_map] at hwaits
      rcases hwaits with ⟨p, hp, hentry⟩ | hleft
      · right
        rw [hfires, List.mem_append, List.mem_filterMap]
        exact .inr ⟨p, hp, by rw [hentry]; rfl⟩
      · exact .inl hleft
    · right
      rw [hfires]
      exact List.mem_append_left _ hfired

theorem Awaits.runCore {time : Duration} {id : Nat} (h : s.Awaits time id) (ops : List CoreOp) :
    (s.runCore ops).Awaits time id := by
  induction ops generalizing s with
  | nil => exact h
  | cons op ops ih => exact ih (h.step op)

omit [Rand R] in
/-- Either it waits and has not fired, or it fired once and does not wait. -/
theorem Core.awaits_or (h : s.Core) {time : Duration} {id : Nat} (hawaits : s.Awaits time id) :
    ⟨time, id, .wakeup id⟩ ∈ s.heap.entries ∧ id ∉ s.fired
    ∨ (∀ entry ∈ s.heap.entries, entry.seq ≠ id) ∧ s.fired.count id = 1 := by
  by_cases hfired : id ∈ s.fired
  · exact .inr ⟨(h.gone id hfired).2, List.count_eq_one_of_mem h.once hfired⟩
  · exact .inl ⟨hawaits.resolve_right hfired, hfired⟩

/-- **A wakeup fires at its time.** -/
theorem Core.fires_at (h : s.Core) {time : Duration} {id : Nat} (hawaits : s.Awaits time id) (op : CoreOp)
    {p : Duration × Event Pending} (hp : p ∈ s.pops op) (hid : p.2.wakeup? = some id) : p.1 = time := by
  rcases s.step_pops op with ⟨-, hnone⟩ | ⟨hsplit, hclock, -⟩
  · rw [hnone] at hp
    cases hp
  · have hmem : p.2 ∈ s.heap.entries := by
      rw [hsplit]
      exact List.mem_append_left _ (List.mem_map_of_mem hp)
    have hpending : p.2.pending = .wakeup id := by
      unfold Event.wakeup? at hid
      split at hid
      case h_1 => cases hid
      case h_2 id' hpending => rw [hpending, Option.some.inj hid]
    have hseq : p.2.seq = id := (h.named p.2 hmem id hpending).symm
    rcases h.awaits_or hawaits with ⟨hwaits, -⟩ | ⟨hgone, -⟩
    · have hsame : p.2 = ⟨time, id, .wakeup id⟩ := List.inj_on_of_nodup_map h.distinct hmem hwaits hseq
      rw [hclock p hp, hsame]
    · exact absurd hseq (hgone p.2 hmem)

/-- **The discrete-event core.**  In any interleaving of submissions, wakeups, pops and advances, whatever the
faults: the invariant holds, so nothing is due before now and the numbers are different; no operation turns
the clock back; what is popped is the front of the queue in the order of due time and number, each entry at
its own time; a scheduled wakeup waits until it fires, once, at its time; and advancing to a later time leaves
the clock there and nothing due. -/
theorem run_core (plan : FaultPlan R) (simStart : Instant) (ops : List CoreOp) :
    let s := (new plan simStart).runCore ops
    s.Core
    ∧ (∀ op, s.now ≤ (s.step op).now)
    ∧ (∀ op, (s.pops op ≠ [] → s.heap.entries = (s.pops op).map (·.2) ++ (s.step op).heap.entries)
        ∧ (∀ p ∈ s.pops op, p.1 = p.2.due)
        ∧ (s.step op).fired = s.fired ++ (s.pops op).filterMap (·.2.wakeup?))
    ∧ (∀ d later,
        let time := s.now + d
        let id := s.nextSeq
        let s' := (s.step (.op (.sleep d))).runCore later
        (⟨time, id, .wakeup id⟩ ∈ s'.heap.entries ∧ id ∉ s'.fired
          ∨ (∀ entry ∈ s'.heap.entries, entry.seq ≠ id) ∧ s'.fired.count id = 1)
        ∧ ∀ op, ∀ p ∈ s'.pops op, p.2.wakeup? = some id → p.1 = time)
    ∧ ∀ target, s.now ≤ target →
        let s' := s.step (.op (.advanceTo target))
        s'.now = target ∧ ∀ entry ∈ s'.heap.entries, target < entry.due := by
  intro s
  have hcore : s.Core := (new_core plan simStart).runCore ops
  refine ⟨hcore, fun op => (hcore.step op).2, fun op => ?_, fun d later => ?_,
    fun target hlater => s.advanceTo_done hlater⟩
  · rcases s.step_pops op with ⟨hissued, hnone⟩ | ⟨hsplit, hclock, hfires⟩
    · rw [hnone, hissued.fired_eq]
      simp
    · exact ⟨fun _ => hsplit, hclock, hfires⟩
  -- the sleep is in the heap when it is issued, and from there on in it or fired
  · have hslept : (s.step (.op (.sleep d))).Awaits (s.now + d) s.nextSeq :=
      .inl (EventQueue.mem_push.mpr (.inl rfl))
    have hlater := (hcore.step (.op (.sleep d))).1.runCore later
    have hawaits := hslept.runCore later
    exact ⟨hlater.awaits_or hawaits, fun op p hp => hlater.fires_at hawaits op hp⟩

end SimState

end Ethp2p
