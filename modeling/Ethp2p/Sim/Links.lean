/-
# Ethp2p.Sim.Links — links without fault rules are exactly-once FIFO.

A set of links into one peer `b` is given by the set `A` of its senders.  `Linked` says where the messages
of these links are: first those in `b`'s inbox, then those in the queue, in the order they will be
popped, are together what was submitted, in order.

What keeps the order is that nothing on these links is ever due later than now.  A new message is due now
and has the largest number, so it is popped after all of them (`EventQueue.filter_push_last`), however
many messages of other links, with whatever delays, and wakeups are in the queue.  And time only moves
forward because nothing in the queue is ever due before now.
-/
import Ethp2p.Sim.State

namespace Ethp2p

/-- The entry is a delivery to `b` from one of the senders. -/
def Event.onLinks (A : PeerId → Bool) (b : PeerId) (entry : Event Pending) : Bool :=
  match entry.pending with
  | .delivery dst event => dst = b && A event.sender
  | .wakeup _ => false

/-- The event an entry delivers. -/
def Event.event? (entry : Event Pending) : Option NetEvent :=
  match entry.pending with
  | .delivery _ event => some event
  | .wakeup _ => none

namespace SimState

variable {R : Type}

/-- What has reached `b` from the senders. -/
def arrived (s : SimState R) (A : PeerId → Bool) (b : PeerId) : List NetEvent :=
  (s.received b).filter fun event => A event.sender

/-- What is on its way to `b` from the senders, in the order it will be popped. -/
def inTransit (s : SimState R) (A : PeerId → Bool) (b : PeerId) : List NetEvent :=
  (s.heap.entries.filter (Event.onLinks A b)).filterMap Event.event?

/-- Nothing is due before now, and every number was given out. -/
structure Timed (s : SimState R) : Prop where
  due : ∀ entry ∈ s.heap.entries, s.now ≤ entry.due
  seq : ∀ entry ∈ s.heap.entries, entry.seq < s.nextSeq

/-- The messages of the links are in `b`'s inbox and in the queue, in order, and none is due later than
now. -/
structure Linked (A : PeerId → Bool) (b : PeerId) (submitted : List NetEvent) (s : SimState R) :
    Prop extends s.Timed where
  prompt : ∀ entry ∈ s.heap.entries, entry.onLinks A b → entry.due ≤ s.now
  split : s.arrived A b ++ s.inTransit A b = submitted
  spared : ∀ a, A a → s.plan.Spares a b
  live : ∀ inbox ∈ s.inboxes[b]?, inbox.closed = false
  known : ∀ entry ∈ s.heap.entries, entry.onLinks A b → b ∈ s.inboxes

/-- One operation on the simulation. -/
inductive Op where
  | endpoint (peer : PeerId)
  | submit (src : PeerId) (msg : NetSend)
  | sleep (d : Duration)
  | pop
  | advanceTo (target : Duration)
deriving DecidableEq

/-- The event an operation puts on the links: a submission over one of them does. -/
def Op.puts (A : PeerId → Bool) (b : PeerId) : Op → List NetEvent
  | .submit src msg => if A src ∧ msg.destPeer = some b then (intoEvent src msg).toList else []
  | _ => []

/-! ## Time -/

theorem Timed.push {s : SimState R} (h : s.Timed) {due : Duration} (hdue : s.now ≤ due)
    {pending : Pending} {plan : FaultPlan R} {trace : List TraceEntry} :
    Timed { s with
      nextSeq := s.nextSeq + 1, plan, trace
      heap := s.heap.push ⟨due, s.nextSeq, pending⟩ } where
  due entry hentry := by
    rcases EventQueue.mem_push.mp hentry with rfl | hentry
    · exact hdue
    · exact h.due entry hentry
  seq entry hentry := by
    rcases EventQueue.mem_push.mp hentry with rfl | hentry
    · exact Nat.lt_succ_self _
    · exact Nat.lt_succ_of_lt (h.seq entry hentry)

theorem Timed.popped {s s' : SimState R} {step : PumpStep} (h : s.Timed) (hpop : Popped s step s') :
    s'.Timed ∧ s.now ≤ s'.now := by
  obtain ⟨entry, hheap, hnow, hseq, -⟩ := hpop.heap
  have hmem : ∀ x ∈ s'.heap.entries, x ∈ s.heap.entries := fun x hx => by
    rw [EventQueue.pop_entries hheap]
    exact List.mem_cons_of_mem entry hx
  refine ⟨⟨fun x hx => ?_, fun x hx => ?_⟩, ?_⟩
  · rw [hnow]
    exact EventQueue.pop_due_le hheap hx
  · rw [hseq]
    exact h.seq x (hmem x hx)
  · rw [hnow]
    refine h.due entry ?_
    rw [EventQueue.pop_entries hheap]
    exact List.mem_cons_self

/-! ## One operation -/

namespace Linked

variable {A : PeerId → Bool} {b : PeerId} {submitted : List NetEvent} {s s' : SimState R}

/-- An entry that is not on the links may be scheduled for any time. -/
theorem push_other (h : Linked A b submitted s) {delay : Duration} {pending : Pending}
    {plan : FaultPlan R} {trace : List TraceEntry} (hplan : ∀ a, A a → plan.Spares a b)
    (hother : Event.onLinks A b ⟨s.now + delay, s.nextSeq, pending⟩ = false) :
    Linked A b submitted { s with
      nextSeq := s.nextSeq + 1, plan, trace
      heap := s.heap.push ⟨s.now + delay, s.nextSeq, pending⟩ } where
  toTimed := h.toTimed.push (Nat.le_add_right _ _)
  prompt entry hentry hlinks := by
    rcases EventQueue.mem_push.mp hentry with rfl | hentry
    · rw [hother] at hlinks
      cases hlinks
    · exact h.prompt entry hentry hlinks
  split := by
    refine Eq.trans ?_ h.split
    simp only [arrived, received, inTransit, EventQueue.filter_push_of_neg hother]
  spared := hplan
  live := h.live
  known entry hentry hlinks := by
    rcases EventQueue.mem_push.mp hentry with rfl | hentry
    · rw [hother] at hlinks
      cases hlinks
    · exact h.known entry hentry hlinks

/-- A message of the links goes behind all others of the links. -/
theorem push_link (h : Linked A b submitted s) {event : NetEvent} {plan : FaultPlan R}
    {trace : List TraceEntry} (hplan : ∀ a, A a → plan.Spares a b) (hA : A event.sender)
    (hknown : b ∈ s.inboxes) :
    Linked A b (submitted ++ [event]) { s with
      nextSeq := s.nextSeq + 1, plan, trace
      heap := s.heap.push ⟨s.now, s.nextSeq, .delivery b event⟩ } where
  toTimed := h.toTimed.push le_rfl
  prompt entry hentry hlinks := by
    rcases EventQueue.mem_push.mp hentry with rfl | hentry
    · exact le_rfl
    · exact h.prompt entry hentry hlinks
  split := by
    have honlinks : Event.onLinks A b ⟨s.now, s.nextSeq, .delivery b event⟩ = true := by
      simp [Event.onLinks, hA]
    have hlast := EventQueue.filter_push_last honlinks fun x hx hlinks hbefore => by
      have hdue := h.prompt x hx hlinks
      have hseq := h.seq x hx
      rcases hbefore with hlt | ⟨-, hle⟩
      · exact absurd hdue (Nat.not_le_of_lt hlt)
      · exact absurd hle (Nat.not_le_of_lt hseq)
    have hsplit := h.split
    simp only [arrived, received, inTransit] at hsplit ⊢
    rw [hlast, List.filterMap_append, ← List.append_assoc, hsplit]
    rfl
  spared := hplan
  live := h.live
  known _ _ _ := hknown

/-- Popping moves the first message of the links from the queue to the inbox. -/
theorem popped {step : PumpStep} (h : Linked A b submitted s) (hpop : Popped s step s') :
    Linked A b submitted s' := by
  obtain ⟨htimed, hnow⟩ := h.toTimed.popped hpop
  obtain ⟨entry, hheap, -, -, hplan⟩ := hpop.heap
  have hentries := EventQueue.pop_entries hheap
  have hprompt : ∀ x ∈ s'.heap.entries, x.onLinks A b → x.due ≤ s'.now := fun x hx hlinks =>
    (h.prompt x (hentries ▸ List.mem_cons_of_mem entry hx) hlinks).trans hnow
  have htransit : s.inTransit A b
      = ([entry].filter (Event.onLinks A b)).filterMap Event.event? ++ s'.inTransit A b := by
    rw [inTransit, inTransit, hentries, ← List.filterMap_append, ← List.filter_append]
    rfl
  have hsplit := h.split
  rw [htransit] at hsplit
  have hspared : ∀ a, A a → s'.plan.Spares a b := hplan ▸ h.spared
  have hmem : ∀ x ∈ s'.heap.entries, x ∈ s.heap.entries := fun x hx =>
    hentries ▸ List.mem_cons_of_mem entry hx
  cases hpop with
  | @delivered entry' heap dst event inbox hpop' hentry hinbox =>
    obtain ⟨rfl, -⟩ := Prod.mk.inj (Option.some.inj (hpop'.symm.trans hheap))
    have hget : ∀ p, (s.inboxes.insert dst (inbox.send event).2)[p]?
        = if dst = p then some (inbox.send event).2 else s.inboxes[p]? :=
      fun p => BTreeMap.get_insert _ _ _ _
    have hknown : ∀ x ∈ heap.entries, x.onLinks A b →
        b ∈ s.inboxes.insert dst (inbox.send event).2 := fun x hx hlinks =>
      Std.ExtTreeMap.mem_insert.mpr (.inr (h.known x (hmem x hx) hlinks))
    by_cases hdst : dst = b
    · subst hdst
      have hopen := h.live inbox hinbox
      rw [Inbox.send_of_open hopen] at hget
      refine ⟨htimed, hprompt, ?_, hspared, fun inbox' hinbox' => ?_, hknown⟩
      · refine Eq.trans ?_ hsplit
        rw [← List.append_assoc]
        refine congrArg (· ++ _) ?_
        have hold : s.received dst = inbox.events := by rw [received, hinbox]; rfl
        have hnew : received { s with
            now := entry'.due, heap, inboxes := s.inboxes.insert dst (inbox.send event).2 } dst
            = inbox.events ++ [event] := by
          rw [received, Inbox.send_of_open hopen, hget, if_pos rfl]
          rfl
        rw [arrived, arrived, hold, hnew, List.filter_append]
        refine congrArg (List.filter _ inbox.events ++ ·) ?_
        cases hA : A event.sender <;> simp [Event.onLinks, Event.event?, hentry, hA]
      · rw [Inbox.send_of_open hopen, hget, if_pos rfl] at hinbox'
        obtain rfl := Option.some.inj hinbox'
        exact hopen
    · have hother : Event.onLinks A b entry' = false := by
        simp [Event.onLinks, hentry, hdst]
      refine ⟨htimed, hprompt, ?_, hspared, fun inbox' hinbox' => ?_, hknown⟩
      · refine Eq.trans ?_ hsplit
        simp only [arrived, received, hget, if_neg hdst, List.filter_cons, hother,
          List.filter_nil, Bool.false_eq_true, if_false, List.filterMap_nil, List.nil_append]
      · rw [hget, if_neg hdst] at hinbox'
        exact h.live inbox' hinbox'
  | @lost entry' heap dst event hpop' hentry hinbox =>
    obtain ⟨rfl, -⟩ := Prod.mk.inj (Option.some.inj (hpop'.symm.trans hheap))
    have hother : Event.onLinks A b entry' = false := by
      -- a message of the links is for a registered peer
      by_contra hlinks
      rw [Bool.not_eq_false] at hlinks
      have hknown := h.known entry' (hentries ▸ List.mem_cons_self) hlinks
      simp only [Event.onLinks, hentry, Bool.and_eq_true, decide_eq_true_eq] at hlinks
      obtain ⟨inbox, hinbox'⟩ := (BTreeMap.mem_iff_get _ _).mp hknown
      rw [hlinks.1, hinbox'] at hinbox
      cases hinbox
    refine ⟨htimed, hprompt, ?_, hspared, h.live, fun x hx => h.known x (hmem x hx)⟩
    refine Eq.trans ?_ hsplit
    simp only [arrived, received, List.filter_cons, hother, List.filter_nil, Bool.false_eq_true,
      if_false, List.filterMap_nil, List.nil_append]
  | @woke entry' heap id hpop' hentry =>
    obtain ⟨rfl, -⟩ := Prod.mk.inj (Option.some.inj (hpop'.symm.trans hheap))
    have hother : Event.onLinks A b entry' = false := by
      simp [Event.onLinks, hentry]
    refine ⟨htimed, hprompt, ?_, hspared, h.live, fun x hx => h.known x (hmem x hx)⟩
    refine Eq.trans ?_ hsplit
    simp only [arrived, received, List.filter_cons, hother, List.filter_nil, Bool.false_eq_true,
      if_false, List.filterMap_nil, List.nil_append]

/-- Popping what is due, then moving the clock, keeps the links in order: what is left is due later. -/
theorem advanceTo (h : Linked A b submitted s) (target : Duration) :
    Linked A b submitted (s.advanceTo target) := by
  have hpopped := popDue_induct (fun s s' step hpop hs => hs.popped hpop) target s.heap.size h
  have hdone := popDue_done target s.heap.size (s := s) le_rfl
  unfold SimState.advanceTo
  dsimp only
  split
  case isTrue hlater =>
    exact { hpopped with
      due := fun entry hentry => Nat.le_of_lt (hdone entry hentry)
      prompt := fun entry hentry hlinks =>
        (hpopped.prompt entry hentry hlinks).trans (Nat.le_of_lt hlater) }
  case isFalse => exact hpopped

/-- A wakeup is not a message. -/
theorem sleep (h : Linked A b submitted s) (d : Duration) : Linked A b submitted (s.sleep d) :=
  h.push_other h.spared rfl

/-- Registering another peer, or `b` before it received anything, changes nothing on the links. -/
theorem endpoint (h : Linked A b submitted s) {p : PeerId} (hfirst : p = b → s.received b = []) :
    Linked A b submitted (s.endpoint p) := by
  have hget : ∀ q, (s.inboxes.insert p {})[q]? = if p = q then some {} else s.inboxes[q]? :=
    fun q => BTreeMap.get_insert _ _ _ _
  refine ⟨⟨h.due, h.seq⟩, h.prompt, ?_, h.spared, fun inbox hinbox => ?_, fun entry hentry hlinks => ?_⟩
  · refine Eq.trans (congrArg (· ++ _) ?_) h.split
    have hnew : (s.endpoint p).received b = if p = b then [] else s.received b := by
      rw [received, SimState.endpoint, hget]
      split <;> rfl
    rw [arrived, arrived, hnew]
    split
    case isTrue hp => rw [hfirst hp]
    case isFalse => rfl
  · have hinbox' : inbox ∈ (s.inboxes.insert p {})[b]? := hinbox
    rw [hget] at hinbox'
    split at hinbox'
    · obtain rfl := Option.some.inj hinbox'
      rfl
    · exact h.live inbox hinbox'
  · exact Std.ExtTreeMap.mem_insert.mpr (.inr (h.known entry hentry hlinks))

variable [Rand R]

/-- A submission puts its event on its link, if the peer is registered. -/
theorem submitSend (h : Linked A b submitted s) (src : PeerId) (msg : NetSend) :
    Linked A b (submitted ++ if b ∈ s.inboxes then (Op.submit src msg).puts A b else [])
      (s.submitSend src msg).2 := by
  -- a message on no watched link adds nothing
  have hnothing : ∀ {s' : SimState R}, Linked A b submitted s' →
      (b ∈ s.inboxes → ¬ (A src ∧ msg.destPeer = some b)) →
      Linked A b (submitted ++ if b ∈ s.inboxes then (Op.submit src msg).puts A b else []) s' := by
    intro s' hs' hother
    have hnil : (if b ∈ s.inboxes then (Op.submit src msg).puts A b else []) = [] := by
      split
      case isTrue hmem => rw [Op.puts, if_neg (hother hmem)]
      case isFalse => rfl
    rwa [hnil, List.append_nil]
  have hcases := s.submitSend_cases src msg
  generalize s.submitSend src msg = result at hcases ⊢
  -- a local command, an unknown peer, a drop, or an entry scheduled
  cases hcases with
  | localCommand hdst => exact hnothing h fun _ hlink => by simp [hdst] at hlink
  | unknown hdst hunknown =>
    refine hnothing h fun hmem hlink => ?_
    obtain rfl := Option.some.inj (hdst.symm.trans hlink.2)
    exact hunknown hmem
  | @dropped dst reason trace hdst hmem hdrop =>
    refine hnothing { h with
      seq := fun entry hentry => Nat.lt_succ_of_lt (h.seq entry hentry)
      spared := fun a ha => (h.spared a ha).classify src dst s.now msg } fun _ hlink => ?_
    obtain rfl := Option.some.inj (hdst.symm.trans hlink.2)
    rw [(h.spared src hlink.1).classify_eq] at hdrop
    cases hdrop
  | @scheduled dst event delay trace hdst hmem hevent hdeliver =>
    have hplan : ∀ a, A a → (s.plan.classify src dst s.now msg).2.Spares a b :=
      fun a ha => (h.spared a ha).classify src dst s.now msg
    have hsender := sender_intoEvent hevent
    by_cases hlink : A src ∧ dst = b
    · obtain ⟨hA, rfl⟩ := hlink
      rw [(h.spared src hA).classify_eq] at hdeliver
      cases hdeliver
      rw [if_pos hmem, Op.puts, if_pos ⟨hA, hdst⟩, hevent]
      exact h.push_link hplan (hsender.symm ▸ hA) hmem
    · refine hnothing (h.push_other hplan ?_) fun _ hlink' =>
        hlink ⟨hlink'.1, Option.some.inj (hdst.symm.trans hlink'.2)⟩
      by_contra hon
      simp only [Event.onLinks, hsender, Bool.not_eq_false, Bool.and_eq_true,
        decide_eq_true_eq] at hon
      exact hlink ⟨hon.2, hon.1⟩

end Linked

/-! ## Runs -/

variable [Rand R] {A : PeerId → Bool} {b : PeerId} {submitted : List NetEvent} {s : SimState R}

/-- Apply one operation. -/
def apply (s : SimState R) : Op → SimState R
  | .endpoint peer => s.endpoint peer
  | .submit src msg => (s.submitSend src msg).2
  | .sleep d => s.sleep d
  | .pop => (s.popNext.map (·.2)).getD s
  | .advanceTo target => s.advanceTo target

/-- Apply operations in turn. -/
def run (s : SimState R) (ops : List Op) : SimState R := ops.foldl apply s

omit [Rand R] in
/-- Popping registers nobody. -/
theorem Popped.mem_inboxes {s' : SimState R} {step : PumpStep} (h : Popped s step s') :
    b ∈ s'.inboxes ↔ b ∈ s.inboxes := by
  cases h with
  | @delivered _ _ dst _ inbox _ _ hinbox =>
    refine Std.ExtTreeMap.mem_insert.trans (or_iff_right_of_imp fun hdst => ?_)
    obtain rfl := Std.LawfulEqOrd.eq_of_compare hdst
    exact (BTreeMap.mem_iff_get _ _).mpr ⟨inbox, hinbox⟩
  | lost | woke => exact Iff.rfl

/-- Only registering a peer makes it known. -/
theorem mem_inboxes_apply (s : SimState R) (op : Op) :
    b ∈ (s.apply op).inboxes ↔ op = .endpoint b ∨ b ∈ s.inboxes := by
  cases op with
  | endpoint peer =>
    refine Std.ExtTreeMap.mem_insert.trans (or_congr_left ?_)
    rw [Std.LawfulEqOrd.compare_eq_iff_eq, Op.endpoint.injEq]
  | submit src msg =>
    show b ∈ (s.submitSend src msg).2.inboxes ↔ _
    have hcases := s.submitSend_cases src msg
    generalize s.submitSend src msg = result at hcases ⊢
    cases hcases <;> simp
  | sleep d => simp [apply, SimState.sleep, scheduleWakeup]
  | pop =>
    show b ∈ ((s.popNext.map (·.2)).getD s).inboxes ↔ _
    cases hnext : s.popNext with
    | none => simp
    | some next =>
      obtain ⟨step, s'⟩ := next
      have hmem := (popNext_eq_some hnext).mem_inboxes (b := b)
      simpa using hmem
  | advanceTo target =>
    have hdue := popDue_induct (Q := fun s' => b ∈ s'.inboxes ↔ b ∈ s.inboxes)
      (fun s' s'' step hpop hs' => hpop.mem_inboxes.trans hs') target s.heap.size Iff.rfl
    show b ∈ (s.advanceTo target).inboxes ↔ _
    unfold SimState.advanceTo
    dsimp only
    split <;> simpa using hdue

/-- **One operation** puts its message at the end of its link and moves messages from the queue to the
inbox, in order. -/
theorem Linked.apply (h : Linked A b submitted s) (op : Op)
    (hfirst : op = .endpoint b → b ∉ s.inboxes) :
    Linked A b (submitted ++ if b ∈ s.inboxes then op.puts A b else []) (s.apply op) := by
  have hnothing : ∀ {s' : SimState R}, Linked A b submitted s' → op.puts A b = [] →
      Linked A b (submitted ++ if b ∈ s.inboxes then op.puts A b else []) s' := by
    intro s' hs' hnil
    rwa [hnil, ite_self, List.append_nil]
  cases op with
  | endpoint peer =>
    refine hnothing (h.endpoint fun hp => ?_) rfl
    rw [received, Std.ExtTreeMap.getElem?_eq_none (hfirst (congrArg Op.endpoint hp))]
    rfl
  | submit src msg => exact h.submitSend src msg
  | sleep d => exact hnothing (h.sleep d) rfl
  | pop =>
    refine hnothing ?_ rfl
    show Linked A b submitted ((s.popNext.map (·.2)).getD s)
    cases hnext : s.popNext with
    | none => exact h
    | some next => exact h.popped (popNext_eq_some hnext)
  | advanceTo target => exact hnothing (h.advanceTo target) rfl

/-- Before `b` is registered nothing goes over its links. -/
theorem Linked.run_unknown (h : Linked A b submitted s) (hnot : b ∉ s.inboxes) {ops : List Op}
    (hops : .endpoint b ∉ ops) :
    Linked A b submitted (s.run ops) ∧ b ∉ (s.run ops).inboxes := by
  induction ops generalizing s with
  | nil => exact ⟨h, hnot⟩
  | cons op ops ih =>
    rw [List.mem_cons, not_or] at hops
    obtain ⟨hop, hops⟩ := hops
    have hstep := h.apply op fun heq => absurd heq.symm hop
    rw [if_neg hnot, List.append_nil] at hstep
    refine ih hstep (fun hmem => ?_) hops
    exact ((mem_inboxes_apply s op).mp hmem).elim (fun heq => hop heq.symm) hnot

/-- After that every submission goes over its link. -/
theorem Linked.run_known (h : Linked A b submitted s) (hmem : b ∈ s.inboxes) {ops : List Op}
    (hops : .endpoint b ∉ ops) :
    Linked A b (submitted ++ ops.flatMap (Op.puts A b)) (s.run ops) := by
  induction ops generalizing s submitted with
  | nil => simpa [SimState.run] using h
  | cons op ops ih =>
    rw [List.mem_cons, not_or] at hops
    obtain ⟨hop, hops⟩ := hops
    have hstep := h.apply op fun heq => absurd heq.symm hop
    rw [if_pos hmem] at hstep
    rw [List.flatMap_cons, ← List.append_assoc]
    exact ih hstep ((mem_inboxes_apply s op).mpr (.inr hmem)) hops

omit [Rand R] in
theorem new_linked {plan : FaultPlan R} (hspared : ∀ a, A a → plan.Spares a b) (simStart : Instant) :
    Linked A b [] (new plan simStart) where
  due := by simp [new]
  seq := by simp [new]
  prompt := by simp [new]
  split := by simp [arrived, received, inTransit, new]
  spared := hspared
  live := by simp [new]
  known := by simp [new]

/-- **Links without fault rules are exactly-once FIFO.**  Whatever the rules of other links, and in any
interleaving of submissions, wakeups, pops and advances around the one registration of `b`: what has
reached `b` from `a`, followed by what is in the queue, is exactly what `a` submitted to `b` since, in
order; and all of it has reached `b` when the queue is empty. -/
theorem run_link_fifo {plan : FaultPlan R} {a b : PeerId} (hspared : plan.Spares a b)
    (simStart : Instant) {before after : List Op} (hbefore : .endpoint b ∉ before)
    (hafter : .endpoint b ∉ after) :
    let s := (new plan simStart).run (before ++ .endpoint b :: after)
    s.arrived (· = a) b ++ s.inTransit (· = a) b = after.flatMap (Op.puts (· = a) b)
    ∧ (s.heap.entries = [] → s.arrived (· = a) b = after.flatMap (Op.puts (· = a) b)) := by
  intro s
  have hnew : Linked (fun p => decide (p = a)) b [] (new plan simStart) :=
    new_linked (fun p hp => by
      obtain rfl := of_decide_eq_true hp
      exact hspared) simStart
  obtain ⟨hunknown, hnot⟩ := hnew.run_unknown (by simp [new]) hbefore
  have hregistered := hunknown.apply (.endpoint b) fun _ => hnot
  rw [if_neg hnot, List.append_nil] at hregistered
  have hrun := (hregistered.run_known ((mem_inboxes_apply _ _).mpr (.inl rfl)) hafter).split
  have hs : (((new plan simStart).run before).apply (.endpoint b)).run after = s := by
    simp only [s, SimState.run, List.foldl_append, List.foldl_cons]
  rw [hs, List.nil_append] at hrun
  refine ⟨hrun, fun hempty => ?_⟩
  rw [← hrun, inTransit, hempty]
  simp

/-- A generator for plans that draw nothing. -/
@[reducible]
def noDraws : Rand Unit where
  seedFromU64 _ := ()
  randomBelow _ _ := (false, ())
  randomRange _ _ := (0, ())

section

attribute [local instance] noDraws

/-- Two messages to a peer whose link from a third one is cut. -/
theorem run_link_fifo_cut : let plan : FaultPlan Unit := (FaultPlan.new 7).partition 2 3 0 9
    let s := (new plan 0).run ([] ++ .endpoint 2 :: [.submit 1 (.subscribe 2 "c"), .pop,
      .submit 3 (.subscribe 2 "c"), .sleep 4, .submit 1 (.unsubscribe 2 "c")])
    s.arrived (· = 1) 2 ++ s.inTransit (· = 1) 2 = [.subscribe 1 "c", .unsubscribe 1 "c"] :=
  have hspared : ((FaultPlan.new 7).partition 2 3 0 9 : FaultPlan Unit).Spares 1 2 := by
    simp [FaultPlan.Spares, FaultPlan.partition, FaultPlan.addRule, FaultPlan.new, FaultRule.Matches]
  (run_link_fifo hspared 0 (by simp : Op.endpoint 2 ∉ []) (by simp)).1

end

end SimState

end Ethp2p
