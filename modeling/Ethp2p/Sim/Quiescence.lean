/-
# Ethp2p.Sim.Quiescence — when a quiet simulation has idle engines.

The loop of `runToQuiescence` steps an engine once for each delivery it pops, so it takes as many events
out of inboxes as it puts in, and what was unread when it was called is as long when it returns.  An
inbox that is behind stays behind.

Three calls leave an inbox behind (`Strays`): a `pump` or an `advanceTo` that moves a delivery to an
engine without stepping it, and a run to quiescence that pops a delivery to an engine as its budget ends.
`runToQuiescence_quiescent_iff` says that these are the only ones.
-/
import Ethp2p.Sim.Links
import Ethp2p.Sim.Runner
import Ethp2p.Strategy.Rs.OneShard

namespace Ethp2p

namespace Inbox

/-- An event that is put into an inbox is the last to be read. -/
theorem unread_send {inbox : Inbox} (hopen : inbox.closed = false)
    (htaken : inbox.taken ≤ inbox.events.length) (event : NetEvent) :
    (inbox.send event).2.unread = inbox.unread ++ [event] := by
  rw [send_of_open hopen]
  exact List.drop_append_of_le_length htaken

/-- The first event that was not read is read. -/
theorem recv_eq_some {inbox inbox' : Inbox} {event : NetEvent}
    (h : inbox.recv = some (event, inbox')) :
    inbox.unread = event :: inbox'.unread ∧ inbox'.events = inbox.events
      ∧ inbox'.closed = inbox.closed ∧ inbox'.taken = inbox.taken + 1 := by
  obtain ⟨event', hget, heq⟩ := Option.map_eq_some_iff.mp h
  obtain ⟨rfl, rfl⟩ := Prod.mk.inj heq
  obtain ⟨hlt, rfl⟩ := List.getElem?_eq_some_iff.mp hget
  exact ⟨List.drop_eq_getElem_cons hlt, rfl, rfl, rfl⟩

/-- An inbox from which nothing can be read is empty. -/
theorem recv_eq_none {inbox : Inbox} (h : inbox.recv = none) : inbox.unread = [] := by
  rw [recv, Option.map_eq_none_iff, List.getElem?_eq_none_iff] at h
  exact List.drop_of_length_le h

end Inbox

namespace SimRunner

variable {R : Type}

/-- The entry is a delivery to an engine. -/
def hosts (r : SimRunner R) (entry : Event Pending) : Bool :=
  match entry.pending with
  | .delivery dst _ => dst ∈ r.engines
  | .wakeup _ => false

/-- What was moved into a peer's inbox and not taken out. -/
def unread (r : SimRunner R) (p : PeerId) : List NetEvent :=
  (r.hub.inboxes[p]?.map (·.unread)).getD []

/-- What the engine of a peer was stepped with. -/
def steppedWith (r : SimRunner R) (p : PeerId) : List NetEvent :=
  (r.stepped.filter (·.1 = p)).map (·.2)

/-- Every engine has read its inbox. -/
def AllRead (r : SimRunner R) : Prop := ∀ p ∈ r.engines, r.unread p = []

/-- The queue is empty, and every engine was stepped with everything that was moved into its inbox, in
the order it was moved. -/
def Quiescent (r : SimRunner R) : Prop :=
  r.hub.heap.entries = [] ∧ r.AllRead ∧ ∀ p ∈ r.engines, r.steppedWith p = r.hub.received p

/-- Every engine has an open inbox and was stepped with the events it took out of it. -/
structure Served (r : SimRunner R) : Prop where
  inbox : ∀ p ∈ r.engines, ∃ inbox, r.hub.inboxes[p]? = some inbox ∧ inbox.closed = false
    ∧ inbox.taken ≤ inbox.events.length
  stepped : ∀ p ∈ r.engines, r.steppedWith p ++ r.unread p = r.hub.received p

/-- Nothing is moved into inboxes or out of them. -/
structure Unmoved (r r' : SimRunner R) : Prop where
  hosted : ∀ p, p ∈ r'.engines ↔ p ∈ r.engines
  inboxes : r'.hub.inboxes = r.hub.inboxes
  stepped : r'.stepped = r.stepped

variable {r r' r'' : SimRunner R}

namespace Unmoved

theorem refl (r : SimRunner R) : Unmoved r r := ⟨fun _ => Iff.rfl, rfl, rfl⟩

theorem trans (h : Unmoved r r') (h' : Unmoved r' r'') : Unmoved r r'' :=
  ⟨fun p => (h'.hosted p).trans (h.hosted p), h'.inboxes.trans h.inboxes, h'.stepped.trans h.stepped⟩

theorem unread (h : Unmoved r r') (p : PeerId) : r'.unread p = r.unread p := by
  rw [SimRunner.unread, SimRunner.unread, h.inboxes]

theorem allRead (h : Unmoved r r') : r'.AllRead ↔ r.AllRead :=
  forall_congr' fun p => imp_congr (h.hosted p) (by rw [h.unread])

theorem served (h : Unmoved r r') (hr : r.Served) : r'.Served where
  inbox p hp := h.inboxes ▸ hr.inbox p ((h.hosted p).mp hp)
  stepped p hp := by
    have hold := hr.stepped p ((h.hosted p).mp hp)
    rw [steppedWith, h.stepped, h.unread, SimState.received, h.inboxes]
    exact hold

end Unmoved

/-! ## Calls that only submit -/

section Calls

variable [Crates] [Rand R]

omit [Crates] in
/-- A submission moves nothing. -/
theorem inboxes_submitSend (s : SimState R) (src : PeerId) (msg : NetSend) :
    (s.submitSend src msg).2.inboxes = s.inboxes := by
  have hcases := s.submitSend_cases src msg
  generalize s.submitSend src msg = result at hcases ⊢
  cases hcases <;> rfl

/-- A call of an engine leaves the inboxes, as messages wait in the queue of the hub until it is pumped. -/
theorem perform_unmoved {p : PeerId} (hp : p ∈ r.engines)
    (engine : Engine RsStrategy (SimNetEndpoint R)) (i : Input RsStrategy) :
    Unmoved r (r.perform p engine i).2 where
  hosted q := by
    refine Std.ExtTreeMap.mem_insert.trans (or_iff_right_of_imp fun hq => ?_)
    obtain rfl := Std.LawfulEqOrd.eq_of_compare hq
    exact hp
  inboxes := Engine.step_net
    (Q := fun net : SimNetEndpoint R => net.shared.inboxes = r.hub.inboxes)
    (fun net msg hnet => (inboxes_submitSend net.shared net.peerId msg).trans hnet) i rfl
  stepped := rfl

/-- Calls in a row leave the inboxes. -/
theorem performEach_unmoved (calls : List (PeerId × Input RsStrategy)) (r : SimRunner R) :
    Unmoved r (performEach calls r).2 := by
  induction calls generalizing r with
  | nil => exact .refl r
  | cons call calls ih =>
    obtain ⟨peer, i⟩ := call
    unfold performEach
    cases hengine : r.engines[peer]? with
    | none => exact ih r
    | some engine =>
      have hmoved := perform_unmoved ((BTreeMap.mem_iff_get _ _).mpr ⟨engine, hengine⟩) engine i
      dsimp only
      rcases h : r.perform peer engine i with ⟨err | _, r1⟩ <;> rw [h] at hmoved
      · exact hmoved
      · exact hmoved.trans (ih r1)

/-- A publish leaves the inboxes. -/
theorem publish_unmoved (r : SimRunner R) (origin : PeerId) (channel : ChannelId)
    (messageId : MessageId) (payload : Bytes) (config : RsConfig) :
    Unmoved r (r.publish origin channel messageId payload config).2 := by
  unfold publish
  split
  · exact .refl r
  · dsimp only
    split
    · exact .refl r
    · split
      · exact .refl r
      case h_2 strategy _ _ engine hengine =>
        exact perform_unmoved ((BTreeMap.mem_iff_get _ _).mpr ⟨engine, hengine⟩) engine
          (.publish channel messageId strategy _)

omit [Crates] [Rand R] in
/-- The application that takes its messages leaves the inboxes. -/
theorem takeDeliveries_unmoved (r : SimRunner R) (peer : PeerId) :
    Unmoved r (r.takeDeliveries peer).2 := by
  unfold takeDeliveries
  split
  · exact .refl r
  case h_2 engine hengine =>
    refine ⟨fun q => ?_, rfl, rfl⟩
    refine Std.ExtTreeMap.mem_insert.trans (or_iff_right_of_imp fun hq => ?_)
    obtain rfl := Std.LawfulEqOrd.eq_of_compare hq
    exact (BTreeMap.mem_iff_get _ _).mpr ⟨engine, hengine⟩

end Calls

/-! ## Popping and serving -/

/-- How far an engine is behind its inbox. -/
def lag (r : SimRunner R) (p : PeerId) : Nat := (r.unread p).length

/-- Everything is read if nobody lags behind. -/
theorem allRead_iff_lag : r.AllRead ↔ ∀ p ∈ r.engines, r.lag p = 0 :=
  forall₂_congr fun _ _ => List.length_eq_zero_iff.symm

/-- Popping a delivery to an engine puts it one more event behind. -/
theorem Served.popped {step : PumpStep} {hub : SimState R} (h : r.Served)
    (hpop : SimState.Popped r.hub step hub) :
    Served { r with hub } ∧ ∀ p ∈ r.engines,
      lag { r with hub } p = r.lag p + if step = .deliveredTo p then 1 else 0 := by
  -- a delivery adds one unread event to its peer; a wakeup or a stranger adds nothing
  cases hpop with
  | @delivered entry heap dst event inbox hpop hentry hinbox =>
    have hget : ∀ p, (r.hub.inboxes.insert dst (inbox.send event).2)[p]?
        = if dst = p then some (inbox.send event).2 else r.hub.inboxes[p]? :=
      fun p => BTreeMap.get_insert _ _ _ _
    have hdst : dst ∈ r.engines → inbox.closed = false ∧ inbox.taken ≤ inbox.events.length := by
      intro hhost
      obtain ⟨inbox', hinbox', hprops⟩ := h.inbox dst hhost
      obtain rfl := Option.some.inj (hinbox.symm.trans hinbox')
      exact hprops
    have hold : r.unread dst = inbox.unread ∧ r.hub.received dst = inbox.events := by
      simp [unread, SimState.received, hinbox]
    refine ⟨⟨fun p hp => ?_, fun p hp => ?_⟩, fun p hp => ?_⟩
    · show ∃ inbox', (r.hub.inboxes.insert dst (inbox.send event).2)[p]? = some inbox' ∧ _
      rw [hget]
      split
      case isTrue heq =>
        subst heq
        obtain ⟨hopen, htaken⟩ := hdst hp
        rw [Inbox.send_of_open hopen]
        exact ⟨_, rfl, hopen, by simpa using Nat.le_succ_of_le htaken⟩
      case isFalse => exact h.inbox p hp
    · have hserved := h.stepped p hp
      rw [steppedWith] at hserved ⊢
      rw [unread, SimState.received] at hserved ⊢
      dsimp only
      rw [hget]
      split
      case isTrue heq =>
        subst heq
        obtain ⟨hopen, htaken⟩ := hdst hp
        rw [hinbox] at hserved
        show _ ++ (inbox.send event).2.unread = (inbox.send event).2.events
        rw [Inbox.unread_send hopen htaken, ← List.append_assoc, Inbox.send_of_open hopen]
        exact congrArg (· ++ [event]) hserved
      case isFalse => exact hserved
    · rw [lag, lag, unread]
      dsimp only
      rw [hget]
      by_cases heq : dst = p
      · subst heq
        obtain ⟨hopen, htaken⟩ := hdst hp
        rw [if_pos rfl, if_pos rfl, hold.1, Option.map_some, Option.getD_some,
          Inbox.unread_send hopen htaken, List.length_append]
        rfl
      · rw [if_neg heq, if_neg (by simpa using heq)]
        rfl
  | @lost entry heap dst event hpop hentry hinbox =>
    refine ⟨⟨h.inbox, h.stepped⟩, fun p hp => ?_⟩
    have hne : dst ≠ p := by
      rintro rfl
      obtain ⟨inbox, hinbox', -⟩ := h.inbox dst hp
      cases hinbox.symm.trans hinbox'
    rw [if_neg (by simpa using hne)]
    rfl
  | woke => exact ⟨⟨h.inbox, h.stepped⟩, fun p _ => rfl⟩

/-- The popped entry was a delivery to an engine if the destination is one. -/
theorem popped_hosts {step : PumpStep} {hub : SimState R} (hpop : SimState.Popped r.hub step hub) :
    ∃ entry, r.hub.heap.pop = some (entry, hub.heap)
      ∧ (r.hosts entry ↔ ∃ p ∈ r.engines, step = .deliveredTo p) := by
  cases hpop with
  | @delivered entry heap dst event inbox hpop hentry | @lost entry heap dst event hpop hentry =>
    refine ⟨entry, hpop, ?_⟩
    simp [hosts, hentry]
  | @woke entry heap id hpop hentry =>
    refine ⟨entry, hpop, ?_⟩
    simp [hosts, hentry]

/-- After a pop every inbox is read if it was before and the entry was no delivery to an engine. -/
theorem Served.popped_allRead {step : PumpStep} {hub : SimState R} {entry : Event Pending}
    (h : r.Served) (hpop : SimState.Popped r.hub step hub)
    (hentry : r.hub.heap.pop = some (entry, hub.heap)) :
    AllRead { r with hub } ↔ r.AllRead ∧ r.hosts entry = false := by
  obtain ⟨entry', hentry', hhosts⟩ := popped_hosts hpop
  obtain ⟨rfl, -⟩ := Prod.mk.inj (Option.some.inj (hentry'.symm.trans hentry))
  rw [allRead_iff_lag, allRead_iff_lag, ← Bool.not_eq_true, hhosts]
  have hlag := (h.popped hpop).2
  constructor
  · intro hall
    refine ⟨fun p hp => ?_, ?_⟩
    · have hp' := hall p hp
      rw [hlag p hp] at hp'
      omega
    · rintro ⟨p, hp, rfl⟩
      have hp' := hall p hp
      rw [hlag p hp, if_pos rfl] at hp'
      omega
  · rintro ⟨hall, hnone⟩ p hp
    rw [hlag p hp, hall p hp, if_neg fun heq => hnone ⟨p, hp, heq⟩]

/-- The runner when an engine is about to be stepped with an event. -/
def taken (r : SimRunner R) (peer : PeerId) (event : NetEvent) (inbox : Inbox) : SimRunner R :=
  let hub := r.hub.recordEngineStep peer
  { r with
    hub := { hub with inboxes := hub.inboxes.insert peer inbox }
    stepped := r.stepped ++ [(peer, event)] }

/-- Taking the oldest event out of an engine's inbox brings the engine one event closer to it. -/
theorem Served.taken {peer : PeerId} {inbox inbox' : Inbox} {event : NetEvent} (h : r.Served)
    (hinbox : r.hub.inboxes[peer]? = some inbox) (hrecv : inbox.recv = some (event, inbox')) :
    (r.taken peer event inbox').Served
    ∧ ∀ p ∈ r.engines,
      (r.taken peer event inbox').lag p + (if peer = p then 1 else 0) = r.lag p := by
  obtain ⟨hunread, hevents, hclosed, htaken⟩ := Inbox.recv_eq_some hrecv
  have hget : ∀ p, (r.taken peer event inbox').hub.inboxes[p]?
      = if peer = p then some inbox' else r.hub.inboxes[p]? := fun p => BTreeMap.get_insert _ _ _ _
  have hstepped : ∀ p, (r.taken peer event inbox').steppedWith p
      = r.steppedWith p ++ if peer = p then [event] else [] := by
    intro p
    simp only [steppedWith, SimRunner.taken, List.filter_append, List.map_append]
    by_cases hp : peer = p <;> simp [hp]
  -- an event was there to take
  have hlt : inbox.taken < inbox.events.length := by
    have hlen := congrArg List.length hunread
    rw [Inbox.unread, List.length_drop, List.length_cons] at hlen
    omega
  refine ⟨⟨fun p hp => ?_, fun p hp => ?_⟩, fun p _ => ?_⟩
  · obtain ⟨inbox₀, hinbox₀, hopen, -⟩ := h.inbox p hp
    rw [hget]
    split
    case isTrue heq =>
      obtain rfl := heq
      obtain rfl := Option.some.inj (hinbox.symm.trans hinbox₀)
      exact ⟨inbox', rfl, hclosed.trans hopen, by rw [htaken, hevents]; exact hlt⟩
    case isFalse => exact h.inbox p hp
  · have hserved := h.stepped p hp
    rw [hstepped]
    rw [unread, SimState.received] at hserved ⊢
    rw [hget]
    split
    case isTrue heq =>
      obtain rfl := heq
      rw [hinbox] at hserved
      show _ ++ [event] ++ inbox'.unread = inbox'.events
      rw [List.append_assoc, hevents]
      exact (congrArg _ hunread).symm.trans hserved
    case isFalse =>
      rw [List.append_nil]
      exact hserved
  · rw [lag, lag, unread, unread, hget]
    split
    case isTrue heq =>
      obtain rfl := heq
      rw [hinbox]
      exact (congrArg List.length hunread).symm
    case isFalse => rfl

section Serving

variable [Crates] [Rand R]

/-- **Serving a popped delivery** steps its engine with the oldest event of its inbox. -/
theorem Served.serve (step : PumpStep) (h : r.Served)
    (hbehind : ∀ p ∈ r.engines, step = .deliveredTo p → r.lag p ≠ 0) :
    (r.serve step).1 = some (.ok ()) ∧ (r.serve step).2.Served
    ∧ (∀ p, p ∈ (r.serve step).2.engines ↔ p ∈ r.engines)
    ∧ ∀ p ∈ r.engines,
      (r.serve step).2.lag p + (if step = .deliveredTo p then 1 else 0) = r.lag p := by
  cases step with
  | woke => exact ⟨rfl, h, fun _ => Iff.rfl, fun _ _ => rfl⟩
  | deliveredTo peer =>
    -- a peer without an engine is skipped; one with an engine takes one event
    cases hengine : r.engines[peer]? with
    | none =>
      have hserve : r.serve (.deliveredTo peer) = (some (.ok ()), r) := by
        simp only [SimRunner.serve, hengine]
      have hnot := BTreeMap.not_mem_of_get hengine
      rw [hserve]
      refine ⟨rfl, h, fun _ => Iff.rfl, fun p hp => ?_⟩
      have hne : peer ≠ p := fun heq => hnot (heq ▸ hp)
      rw [if_neg (by simpa using hne)]
      rfl
    | some engine =>
      have hp := (BTreeMap.mem_iff_get _ _).mpr ⟨engine, hengine⟩
      obtain ⟨inbox, hinbox, -, -⟩ := h.inbox peer hp
      cases hrecv : inbox.recv with
      | none =>
        have hread : r.unread peer = [] := by
          rw [unread, hinbox]
          exact Inbox.recv_eq_none hrecv
        exact absurd (List.length_eq_zero_iff.mpr hread) (hbehind peer hp rfl)
      | some next =>
        obtain ⟨event, inbox'⟩ := next
        have hserve : r.serve (.deliveredTo peer) = (some (.ok ()),
            ((r.taken peer event inbox').perform peer engine (.event event)).2) := by
          have hinbox' : (r.hub.recordEngineStep peer).inboxes[peer]? = some inbox := hinbox
          simp only [SimRunner.serve, hengine, hinbox', hrecv]
          rfl
        obtain ⟨hserved, hlag⟩ := h.taken hinbox hrecv
        have hmoved := perform_unmoved (r := r.taken peer event inbox') hp engine (.event event)
        rw [hserve]
        refine ⟨rfl, hmoved.served hserved, hmoved.hosted, fun q hq => ?_⟩
        have hlag' := hlag q hq
        rw [lag, ← hmoved.unread, ← lag] at hlag'
        simpa using hlag'

/-- **One round of the loop** leaves every engine as far behind as it was. -/
theorem Served.round {step : PumpStep} {hub : SimState R} (h : r.Served)
    (hpop : SimState.Popped r.hub step hub) :
    let result := SimRunner.serve { r with hub } step
    result.1 = some (.ok ()) ∧ result.2.Served ∧ (∀ p, p ∈ result.2.engines ↔ p ∈ r.engines)
    ∧ (result.2.AllRead ↔ r.AllRead) := by
  intro result
  obtain ⟨hpopped, hmore⟩ := h.popped hpop
  obtain ⟨hok, hserved, hhosted, hless⟩ := hpopped.serve step fun p hp hstep => by
    rw [hmore p hp, if_pos hstep]
    exact Nat.succ_ne_zero _
  refine ⟨hok, hserved, hhosted, ?_⟩
  rw [allRead_iff_lag, allRead_iff_lag]
  refine forall_congr' fun p => ⟨fun hall hp => ?_, fun hall hp => ?_⟩
  · have hp' : (SimRunner.serve { r with hub } step).2.lag p = 0 := hall ((hhosted p).mpr hp)
    have hmore' := hmore p hp
    have hless' := hless p hp
    omega
  · have hp' := (hhosted p).mp hp
    have hread := hall hp'
    have hmore' := hmore p hp'
    have hless' := hless p hp'
    show (SimRunner.serve { r with hub } step).2.lag p = 0
    omega

/-! ## Runs to quiescence -/

/-- The entry at which the loop's budget ends is a delivery to an engine. -/
def Overruns : Nat → SimRunner R → Prop
  | 0, r => ∃ entry ∈ r.hub.heap.entries.head?, r.hosts entry
  | budget + 1, r =>
    match r.hub.popNext with
    | none => False
    | some (step, hub) => Overruns budget (serve { r with hub } step).2

/-- **The loop of a run to quiescence** ends with an empty queue or out of budget, and leaves every inbox
read if it was read before and the budget did not end at a delivery to an engine. -/
theorem Served.quiesce (max budget steps : Nat) (h : r.Served) :
    let result := r.quiesce max budget steps
    result.2.Served ∧ (result.2.AllRead ↔ r.AllRead ∧ ¬ r.Overruns budget)
    ∧ ((∃ n, result.1 = some (.ok n)) ∧ result.2.hub.heap.entries = [] ∧ ¬ r.Overruns budget
      ∨ result.1 = some (.error (.maxStepsExceeded max))) := by
  -- with no budget left the loop pops once more, and gives up if an entry was there
  induction budget generalizing r steps with
  | zero =>
    unfold SimRunner.quiesce
    cases hnext : r.hub.popNext with
    | none =>
      have hempty := SimState.popNext_eq_none.mp hnext
      have hnone : ¬ r.Overruns 0 := by simp [Overruns, hempty]
      exact ⟨h, (and_iff_left hnone).symm, .inl ⟨⟨steps, rfl⟩, hempty, hnone⟩⟩
    | some next =>
      obtain ⟨step, hub⟩ := next
      have hpop := SimState.popNext_eq_some hnext
      obtain ⟨entry, hentry, -⟩ := popped_hosts hpop
      refine ⟨(h.popped hpop).1, ?_, .inr rfl⟩
      refine (h.popped_allRead hpop hentry).trans (and_congr_right fun _ => ?_)
      simp [Overruns, EventQueue.pop_entries hentry]
  | succ budget ih =>
    unfold SimRunner.quiesce Overruns
    cases hnext : r.hub.popNext with
    | none =>
      have hempty := SimState.popNext_eq_none.mp hnext
      exact ⟨h, (and_iff_left not_false).symm, .inl ⟨⟨steps, rfl⟩, hempty, not_false⟩⟩
    | some next =>
      obtain ⟨step, hub⟩ := next
      obtain ⟨hok, hserved, -, hread⟩ := h.round (SimState.popNext_eq_some hnext)
      dsimp only at hok hserved hread ⊢
      rcases hserve : SimRunner.serve { r with hub } step with ⟨res, r1⟩
      rw [hserve] at hok hserved hread
      obtain rfl := hok
      obtain ⟨hserved', hread', hends⟩ := ih (steps + 1) hserved
      exact ⟨hserved', hread'.trans (and_congr_left fun _ => hread), hends⟩

end Serving

/-! ## Scenarios -/

/-- The call leaves an engine behind its inbox. -/
def Strays [Crates] [Rand R] (r : SimRunner R) : Op → Prop
  | .pump => ∃ entry ∈ r.hub.heap.entries.head?, r.hosts entry
  | .advanceTo target => ∃ entry ∈ r.hub.heap.entries, entry.due ≤ target ∧ r.hosts entry
  | .runToQuiescence maxSteps => r.Overruns maxSteps
  | _ => False

/-- No call of the scenario leaves an engine behind its inbox. -/
def NoneStrays [Crates] [Rand R] : SimRunner R → List Op → Prop
  | _, [] => True
  | r, op :: ops => ¬ r.Strays op ∧ NoneStrays (r.apply op) ops

/-- Popping what is due leaves every inbox read if it was read before and no due entry is a delivery to
an engine. -/
theorem Served.popDue (target : Duration) (fuel : Nat) (h : r.Served)
    (hfuel : r.hub.heap.size ≤ fuel) :
    Served { r with hub := SimState.popDue target fuel r.hub }
    ∧ (AllRead { r with hub := SimState.popDue target fuel r.hub } ↔ r.AllRead
      ∧ ¬ ∃ entry ∈ r.hub.heap.entries, entry.due ≤ target ∧ r.hosts entry) := by
  -- the heap is sorted, so the loop stops at the first entry that is not due
  induction fuel generalizing r with
  | zero =>
    have hempty : r.hub.heap.entries = [] := List.eq_nil_of_length_eq_zero (Nat.le_zero.mp hfuel)
    exact ⟨h, by simp [SimState.popDue, hempty]⟩
  | succ fuel ih =>
    unfold SimState.popDue
    cases hhead : r.hub.heap.entries.head? with
    | none => exact ⟨h, by simp [List.head?_eq_none_iff.mp hhead]⟩
    | some first =>
      obtain ⟨rest, hrest⟩ := List.head?_eq_some_iff.mp hhead
      dsimp only
      split
      case isTrue hdue =>
        cases hnext : r.hub.popNext with
        | none =>
          rw [SimState.popNext_eq_none.mp hnext] at hrest
          cases hrest
        | some next =>
          obtain ⟨step, hub⟩ := next
          have hpop := SimState.popNext_eq_some hnext
          obtain ⟨entry, hentry, -⟩ := popped_hosts hpop
          have hentries := EventQueue.pop_entries hentry
          have hsize := hpop.size
          obtain ⟨hserved, hread⟩ := ih (r := { r with hub }) (h.popped hpop).1
            (by show hub.heap.size ≤ fuel; omega)
          refine ⟨hserved, hread.trans ?_⟩
          obtain ⟨rfl, rfl⟩ := List.cons.inj (hrest.symm.trans hentries)
          rw [h.popped_allRead hpop hentry, hentries, List.exists_mem_cons_iff]
          simp only [hdue, true_and, not_or, Bool.not_eq_true, and_assoc]
          exact Iff.rfl
      case isFalse hdue =>
        refine ⟨h, (and_iff_left ?_).symm⟩
        rintro ⟨entry, hentry, hle, -⟩
        have hsorted := r.hub.heap.sorted
        rw [hrest, List.pairwise_cons] at hsorted
        rw [hrest] at hentry
        rcases List.mem_cons.mp hentry with rfl | hentry
        · exact hdue hle
        · exact hdue ((hsorted.1 entry hentry).due_le.trans hle)

section Scenarios

variable [Crates] [Rand R]

/-- **One call** leaves every inbox read if it was read before and the call does not stray. -/
theorem Served.apply (h : r.Served) (op : Op) :
    (r.apply op).Served ∧ ((r.apply op).AllRead ↔ r.AllRead ∧ ¬ r.Strays op) := by
  have hmoved : ∀ {r' : SimRunner R}, Unmoved r r' → r'.Served ∧ (r'.AllRead ↔ r.AllRead ∧ ¬ False) :=
    fun hsame => ⟨hsame.served h, hsame.allRead.trans (and_iff_left not_false).symm⟩
  -- only `pump`, `advanceTo` and `runToQuiescence` take entries off the heap
  cases op with
  | subscribeAll channel config => exact hmoved (performEach_unmoved _ r)
  | connectFullMesh => exact hmoved (performEach_unmoved _ r)
  | publish origin channel messageId payload config =>
    exact hmoved (publish_unmoved r origin channel messageId payload config)
  | takeDeliveries peer => exact hmoved (takeDeliveries_unmoved r peer)
  | pump =>
    show Served { r with hub := (r.hub.popNext.map (·.2)).getD r.hub }
      ∧ (AllRead { r with hub := (r.hub.popNext.map (·.2)).getD r.hub } ↔ _)
    cases hnext : r.hub.popNext with
    | none =>
      have hempty := SimState.popNext_eq_none.mp hnext
      exact ⟨h, by simp [Strays, hempty]⟩
    | some next =>
      obtain ⟨step, hub⟩ := next
      have hpop := SimState.popNext_eq_some hnext
      obtain ⟨entry, hentry, -⟩ := popped_hosts hpop
      refine ⟨(h.popped hpop).1, (h.popped_allRead hpop hentry).trans ?_⟩
      simp [Strays, EventQueue.pop_entries hentry]
  | advanceTo target =>
    have hpopped := h.popDue target r.hub.heap.size le_rfl
    show Served { r with hub := r.hub.advanceTo target }
      ∧ (AllRead { r with hub := r.hub.advanceTo target } ↔ _)
    unfold SimState.advanceTo
    dsimp only
    split
    · exact ⟨⟨hpopped.1.inbox, hpopped.1.stepped⟩, hpopped.2⟩
    · exact hpopped
  | runToQuiescence maxSteps =>
    obtain ⟨hserved, hread, -⟩ := h.quiesce maxSteps maxSteps 0
    exact ⟨hserved, hread⟩

/-- **A scenario** leaves every inbox read if none of its calls strays. -/
theorem Served.run (h : r.Served) (ops : List Op) :
    (r.run ops).Served ∧ ((r.run ops).AllRead ↔ r.AllRead ∧ r.NoneStrays ops) := by
  induction ops generalizing r with
  | nil => exact ⟨h, (and_iff_left trivial).symm⟩
  | cons op ops ih =>
    obtain ⟨hserved, hread⟩ := h.apply op
    obtain ⟨hserved', hread'⟩ := ih hserved
    refine ⟨hserved', hread'.trans ?_⟩
    rw [hread, and_assoc]
    rfl

omit [Crates] [Rand R] in
/-- New engines have empty inboxes. -/
theorem new_served (peers : List PeerId) (plan : FaultPlan R) (simStart : Instant) :
    (new peers plan simStart).Served ∧ (new peers plan simStart).AllRead := by
  have hregistered : ∀ (peers : List PeerId) (s : SimState R)
      (make : PeerId → Engine RsStrategy (SimNetEndpoint R))
      (engines : BTreeMap PeerId (Engine RsStrategy (SimNetEndpoint R))),
      (∀ p ∈ engines, s.inboxes[p]? = some {}) →
      ∀ p ∈ peers.foldl (fun engines peer => engines.insert peer (make peer)) engines,
        (peers.foldl SimState.endpoint s).inboxes[p]? = some {} := by
    intro peers s make engines hengines
    induction peers generalizing s engines with
    | nil => exact hengines
    | cons peer peers ih =>
      refine ih _ _ fun p hp => ?_
      show (s.inboxes.insert peer {})[p]? = some {}
      rw [BTreeMap.get_insert]
      split
      case isTrue => rfl
      case isFalse hne =>
        rcases Std.ExtTreeMap.mem_insert.mp hp with heq | hp
        · exact absurd (Std.LawfulEqOrd.eq_of_compare heq) hne
        · exact hengines p hp
  have hinbox : ∀ p ∈ (new peers plan simStart).engines,
      (new peers plan simStart).hub.inboxes[p]? = some {} :=
    hregistered peers (SimState.new plan simStart) _ ∅ (by simp)
  refine ⟨⟨fun p hp => ⟨{}, hinbox p hp, rfl, le_rfl⟩, fun p hp => ?_⟩, fun p hp => ?_⟩
  · rw [unread, SimState.received, hinbox p hp]
    rfl
  · rw [unread, hinbox p hp]
    rfl

/-- **When a quiet simulation has idle engines.**  In every scenario, a run to quiescence that returns
`Ok` leaves the queue empty; and it leaves every engine stepped with everything that was moved into its
inbox, in order, exactly if no earlier call of the scenario has left an engine behind. -/
theorem runToQuiescence_quiescent_iff (peers : List PeerId) (plan : FaultPlan R) (simStart : Instant)
    (ops : List Op) {maxSteps steps : Nat}
    (hok : (((new peers plan simStart).run ops).runToQuiescence maxSteps).1 = some (.ok steps)) :
    (((new peers plan simStart).run ops).runToQuiescence maxSteps).2.hub.heap.entries = []
    ∧ ((((new peers plan simStart).run ops).runToQuiescence maxSteps).2.Quiescent
      ↔ (new peers plan simStart).NoneStrays ops) := by
  obtain ⟨hserved, hread⟩ := new_served peers plan simStart
  obtain ⟨hserved', hread'⟩ := hserved.run ops
  obtain ⟨hserved'', hread'', hends⟩ := hserved'.quiesce maxSteps maxSteps 0
  rcases hends with ⟨-, hempty, hnone⟩ | herr
  · refine ⟨hempty, fun hquiet => ?_, fun hstraight => ?_⟩
    · exact (hread'.mp (hread''.mp hquiet.2.1).1).2
    · have hall := hread''.mpr ⟨hread'.mpr ⟨hread, hstraight⟩, hnone⟩
      refine ⟨hempty, hall, fun p hp => ?_⟩
      have hevents := hserved''.stepped p hp
      rw [hall p hp, List.append_nil] at hevents
      exact hevents
  · cases herr.symm.trans hok

end Scenarios

section

attribute [local instance] oneShard SimState.noDraws

/-- Two connected peers whose handshakes are processed. -/
theorem runToQuiescence_quiescent_mesh :
    let scenario := (new [1, 2] (.new 0) 0 : SimRunner Unit).run [.connectFullMesh]
    (scenario.runToQuiescence 10).2.hub.heap.entries = []
    ∧ ((scenario.runToQuiescence 10).2.Quiescent
      ↔ (new [1, 2] (.new 0) 0 : SimRunner Unit).NoneStrays [.connectFullMesh]) :=
  have hok : (((new [1, 2] (.new 0) 0 : SimRunner Unit).run [.connectFullMesh]).runToQuiescence 10).1
      = some (.ok 2) := by decide +kernel
  runToQuiescence_quiescent_iff [1, 2] (.new 0) 0 [.connectFullMesh] hok

/-- A handshake that was pumped before the run is still unread after it; so is one at which an earlier
run ended its budget. -/
theorem runToQuiescence_not_quiescent :
    let pumped := (new [1, 2] (.new 0) 0 : SimRunner Unit).run [.connectFullMesh, .pump]
    let resumed := (new [1, 2] (.new 0) 0 : SimRunner Unit).run [.connectFullMesh, .runToQuiescence 1]
    ((pumped.runToQuiescence 10).1 = some (.ok 1)
      ∧ (pumped.runToQuiescence 10).2.unread 2 = [.handshake 1 1 [] "peer-1"])
    ∧ ((resumed.runToQuiescence 10).1 = some (.ok 0)
      ∧ (resumed.runToQuiescence 10).2.unread 1 = [.handshake 2 1 [] "peer-2"]) := by
  decide +kernel

end

end SimRunner

end Ethp2p
