/-
# Ethp2p.Sim.Moves — the small steps of a scenario, on the mesh.

Every call on a `SimRunner` but `take_deliveries` is a sequence of small steps (`Move`): an engine performs an
input of the script, an entry is popped, the clock moves on with nothing due, an engine reads the next event
of its inbox.  `Ready` is what holds between them; in particular engines know nobody but each other, so no
submission is refused.

On the mesh a small step is a turn, or nothing (`Move.turns`).
-/
import Ethp2p.Sim.Posts

namespace Ethp2p

/-- A sink only grows in a step that does not receive. -/
structure Sink.Grows (before after : Sink) : Prop where
  capacity_eq : after.capacity = before.capacity
  closed_eq : after.closed = before.closed
  queue : before.queue <+: after.queue

theorem Sink.grows_refl (s : Sink) : s.Grows s := ⟨rfl, rfl, List.prefix_rfl⟩

/-- A sink grows as long as nothing is taken. -/
theorem Sink.grows_trySend (s : Sink) (d : DeliveredMessage) : s.Grows (s.trySend d).2 := by
  unfold trySend
  split
  · exact s.grows_refl
  · split
    · exact ⟨rfl, rfl, List.prefix_append _ _⟩
    · exact s.grows_refl

/-- Only the application takes messages out of the sink. -/
theorem Engine.step_sink [Crates] {N : Type} [Net N] (e : Engine RsStrategy N) {i : Input RsStrategy}
    (hi : i ≠ .recv) : e.delivered.Grows (e.step i).2.delivered := by
  cases hemission : e.emission i with
  | none =>
    rw [step_delivered_of_none hemission hi]
    exact Sink.grows_refl _
  | some emitted =>
    obtain ⟨d, e₁⟩ := emitted
    rw [step_delivered_of_emission hemission]
    exact Sink.grows_trySend _ d

namespace SimRunner

variable {R : Type} [Crates] [Rand R]

/-- What holds of a simulation without delays between two small steps. -/
structure Ready (r : SimRunner R) : Prop where
  served : r.Served
  prompt : r.hub.Prompt
  hosted : ∀ p, p ∈ r.hub.inboxes ↔ p ∈ r.engines
  own : ∀ (p : PeerId) (e : Engine RsStrategy (SimNetEndpoint R)), r.engines[p]? = some e →
    e.net.peerId = p ∧ e.config = {} ∧ e.delivered.capacity = deliverySinkCapacity
    ∧ e.delivered.closed = false
  strangers : ∀ (p : PeerId) (e : Engine RsStrategy (SimNetEndpoint R)) (q : PeerId),
    r.engines[p]? = some e → q ∉ r.engines → Engine.Outside q .recv 0 (e.onWire .idle)
  senders : ∀ p, ∀ ev ∈ r.hub.post p, ev.sender ∈ r.engines

/-- An input of the script: a channel is hosted with a relay factory, a peer with an engine is connected, or
a strategy that was built for it is published. -/
def Scripted (r : SimRunner R) : Input RsStrategy → Prop
  | .subscribe _ factory => ∃ config seeds, factory = rsRelayFactory config seeds
  | .connect other => other ∈ r.engines
  | .publish _ _ strategy _ =>
    ∃ payload config seed, RsStrategy.newOriginWithSeed payload config seed = .ok strategy
  | .event _ | .recv => False

/-- One small step of a scenario in which nobody publishes the message. -/
inductive Move (pub : Publication) (r : SimRunner R) : SimRunner R → Prop
  | performed {p : PeerId} {e : Engine RsStrategy (SimNetEndpoint R)} {i : Input RsStrategy}
      (he : r.engines[p]? = some e) (hi : r.Scripted i)
      (hother : ∀ strategy b, i ≠ .publish pub.c pub.m strategy b) : Move pub r (r.perform p e i).2
  | popped {step : PumpStep} {hub : SimState R} (h : SimState.Popped r.hub step hub) :
      Move pub r { r with hub }
  | waited {target : Duration} (hlater : r.hub.now ≤ target)
      (hdue : ∀ entry ∈ r.hub.heap.entries, target ≤ entry.due) :
      Move pub r { r with hub := { r.hub with now := target } }
  | noted (p : PeerId) : Move pub r { r with hub := r.hub.recordEngineStep p }
  | read {p : PeerId} {e : Engine RsStrategy (SimNetEndpoint R)} {inbox inbox' : Inbox} {event : NetEvent}
      (he : r.engines[p]? = some e) (hinbox : r.hub.inboxes[p]? = some inbox)
      (hrecv : inbox.recv = some (event, inbox')) :
      Move pub r ((r.taken p event inbox').perform p e (.event event)).2

variable {r r' : SimRunner R} {pub : Publication} {p : PeerId} {i : Input RsStrategy}
  {e : Engine RsStrategy (SimNetEndpoint R)} {got : PeerId → List DeliveredMessage} {t₀ : Instant}

/-! ## A call of an engine -/

/-- Nobody without an engine is let in by the input, or subscribes with it. -/
def Known (r : SimRunner R) (i : Input RsStrategy) : Prop :=
  ∀ q, q ∉ r.engines → ¬ i.readmits q ∧ ∀ c, i ≠ .event (.subscribe q c)

/-- What the engine submits goes to peers with an engine. -/
theorem Ready.outside (hr : r.Ready) (he : r.engines[p]? = some e) (hi : i.Valid) (hknown : r.Known i)
    {q : PeerId} (hq : q ∉ r.engines) : Engine.Outside q i 0 ((r.lent p e).step i).2 := by
  obtain ⟨hstranger, hsubscribe⟩ := hknown q hq
  have hidle := (hr.strangers p e q he hq).next (i := i) hstranger fun c hc => absurd hc (hsubscribe c)
  have hlent : Engine.Outside q i 0 (r.lent p e) :=
    ⟨hidle.factories, hidle.unconnected, fun k => { hidle.shuns k with }, hidle.unsent⟩
  exact Engine.step_outside hi hstranger hlent

/-- **A call of an engine keeps the simulation ready.** -/
theorem Ready.perform (pub : Publication) (hr : r.Ready) (he : r.engines[p]? = some e) (hi : i.Valid)
    (hrecv : i ≠ .recv) (hknown : r.Known i) :
    (r.perform p e i).2.Ready ∧ ∀ sent ∈ ((r.lent p e).step i).2.net.log, sent.accepted := by
  obtain ⟨hpeer, hconfig, hcapacity, hclosed⟩ := hr.own p e he
  have hp : p ∈ r.engines := (BTreeMap.mem_iff_get _ _).mpr ⟨e, he⟩
  have hmoved := perform_unmoved hp e i
  obtain ⟨e', hperform, hidle, hpeer', hcalled⟩ := perform_called pub hr.prompt hpeer i
  -- a call cannot reach a peer that has no engine
  have hoff : ∀ q, q ∉ r.engines → Engine.Outside q i 0 ((r.lent p e).step i).2 := fun q hq =>
    hr.outside he hi hknown hq
  rw [hperform] at hmoved ⊢
  have hget : ∀ q, (r.engines.insert p e')[q]? = if p = q then some e' else r.engines[q]? :=
    fun q => BTreeMap.get_insert _ _ _ _
  have hmem : ∀ q, q ∈ r.engines.insert p e' ↔ q ∈ r.engines := hmoved.hosted
  refine ⟨⟨hmoved.served hr.served, hcalled.prompt, fun q => ?_, fun q e₁ he₁ => ?_,
    fun q e₁ x he₁ hx => ?_, fun q ev hev => ?_⟩, fun sent hsent => ?_⟩
  · show q ∈ e'.net.shared.inboxes ↔ _
    rw [hcalled.inboxes_eq, hr.hosted]
    exact (hmem q).symm
  · have he₁' : (r.engines.insert p e')[q]? = some e₁ := he₁
    rw [hget] at he₁'
    split at he₁'
    case isTrue heq =>
      subst heq
      obtain rfl := Option.some.inj he₁'
      have hconfig' : e'.config = ((r.lent p e).step i).2.config := congrArg Engine.config hidle
      have hsink : e'.delivered = ((r.lent p e).step i).2.delivered := congrArg Engine.delivered hidle
      have hgrows := (r.lent p e).step_sink hrecv
      refine ⟨hpeer', ?_, ?_, ?_⟩
      · rw [hconfig', ((r.lent p e).step_lasting i).1]
        exact hconfig
      · rw [hsink, hgrows.capacity_eq]
        exact hcapacity
      · rw [hsink, hgrows.closed_eq]
        exact hclosed
    case isFalse => exact hr.own q e₁ he₁'
  · have he₁' : (r.engines.insert p e')[q]? = some e₁ := he₁
    have hx' : x ∉ r.engines := fun h => hx ((hmem x).mpr h)
    rw [hget] at he₁'
    split at he₁'
    case isTrue heq =>
      obtain rfl := Option.some.inj he₁'
      rw [hidle]
      have hafter := (hoff x hx').between
      exact ⟨hafter.factories, hafter.unconnected, fun k => { hafter.shuns k with }, fun sent hsent => by cases hsent⟩
    case isFalse => exact hr.strangers q e₁ x he₁' hx'
  · refine (hmem ev.sender).mpr ?_
    rcases hcalled.senders q ev hev with hold | rfl
    · exact hr.senders q ev hold
    · exact hp
  · rcases hcalled.accepted sent hsent with hacc | ⟨dst, hdst, hnot⟩
    · exact hacc
    · -- the destination has an engine, so it has an inbox
      rw [hr.hosted] at hnot
      exact absurd hdst ((hoff dst hnot).unsent sent hsent)

omit [Rand R] in
/-- An input of the script is valid, and lets in nobody without an engine. -/
theorem Scripted.known (hi : r.Scripted i) : i.Valid ∧ i ≠ .recv ∧ r.Known i ∧ ∀ ev, i ≠ .event ev := by
  cases i with
  | subscribe c factory =>
    have hevent : ∀ ev, Input.subscribe c factory ≠ .event ev := by simp
    exact ⟨hi, by simp, fun q _ => ⟨Bool.false_ne_true, fun c => hevent _⟩, hevent⟩
  | connect other =>
    have hevent : ∀ ev, (Input.connect other : Input RsStrategy) ≠ .event ev := by simp
    refine ⟨trivial, by simp, fun q hq => ⟨fun hother => ?_, fun c => hevent _⟩, hevent⟩
    have hsame : other = q := of_decide_eq_true hother
    exact hq (hsame ▸ hi)
  | publish c m strategy b =>
    have hevent : ∀ ev, Input.publish c m strategy b ≠ .event ev := by simp
    exact ⟨hi, by simp, fun q _ => ⟨Bool.false_ne_true, fun c => hevent _⟩, hevent⟩
  | event | recv => exact hi.elim

omit [Crates] [Rand R] in
/-- What comes from a peer with an engine lets in nobody else. -/
theorem known_event {ev : NetEvent} (hev : ev.sender ∈ r.engines) : r.Known (.event ev) := by
  refine fun q hq => ⟨fun hreadmits => ?_, fun c hsubscribe => ?_⟩
  · cases ev with
    | peerConnected peer =>
      have hsame : peer = q := of_decide_eq_true hreadmits
      exact hq (hsame ▸ hev)
    | handshake peer version channels name =>
      have hboth := (Bool.and_eq_true _ _).mp hreadmits
      have hsame : peer = q := of_decide_eq_true hboth.1
      exact hq (hsame ▸ hev)
    | _ => exact absurd hreadmits Bool.false_ne_true
  · cases hsubscribe
    exact hq hev

/-! ## What is never taken back -/

/-- A simulation some small steps later, as `p` sees it. -/
structure Later (p : PeerId) (r r' : SimRunner R) : Prop where
  trace : r.hub.trace <+: r'.hub.trace
  wallNow : r.hub.wallNow ≤ r'.hub.wallNow
  stepped : r.steppedWith p <+: r'.steppedWith p
  sink : r.sink p <+: r'.sink p
  hosted : ∀ q, q ∈ r'.engines ↔ q ∈ r.engines

omit [Crates] [Rand R] in
theorem Later.refl (p : PeerId) (r : SimRunner R) : Later p r r :=
  ⟨List.prefix_rfl, le_rfl, List.prefix_rfl, List.prefix_rfl, fun _ => Iff.rfl⟩

omit [Crates] [Rand R] in
theorem Later.trans {r'' : SimRunner R} (h : Later p r r') (h' : Later p r' r'') : Later p r r'' :=
  ⟨h.trace.trans h'.trace, h.wallNow.trans h'.wallNow, h.stepped.trans h'.stepped, h.sink.trans h'.sink,
    fun q => (h'.hosted q).trans (h.hosted q)⟩

/-- A call comes after what was before it. -/
theorem Ready.perform_later (pub : Publication) (hr : r.Ready) (he : r.engines[p]? = some e)
    (hrecv : i ≠ .recv) (q : PeerId) : Later q r (r.perform p e i).2 := by
  have hmoved := perform_unmoved ((BTreeMap.mem_iff_get _ _).mpr ⟨e, he⟩) e i
  obtain ⟨e', hperform, hidle, -, hcalled⟩ := perform_called pub hr.prompt (hr.own p e he).1 i
  rw [hperform] at hmoved ⊢
  obtain ⟨new, htrace, -⟩ := hcalled.conveyed
  refine ⟨⟨new, htrace.symm⟩, hcalled.wallNow_eq.ge, List.prefix_rfl, ?_, hmoved.hosted⟩
  show r.sink q <+: ((r.engines.insert p e')[q]?.map (·.delivered.queue)).getD []
  rw [BTreeMap.get_insert, sink]
  split
  case isTrue hq =>
    subst hq
    have hsink : e'.delivered = ((r.lent p e).step i).2.delivered := congrArg Engine.delivered hidle
    rw [he, Option.map_some, Option.map_some, Option.getD_some, Option.getD_some, hsink]
    exact ((r.lent p e).step_sink hrecv).queue
  case isFalse => exact List.prefix_rfl

omit [Rand R] in
/-- The next event of an inbox is the next of the mail. -/
theorem Ready.next (hr : r.Ready) (he : r.engines[p]? = some e) {inbox inbox' : Inbox} {event : NetEvent}
    (hinbox : r.hub.inboxes[p]? = some inbox) (hrecv : inbox.recv = some (event, inbox')) :
    (r.hub.post p)[(r.steppedWith p).length]? = some event := by
  have hp := (BTreeMap.mem_iff_get _ _).mpr ⟨e, he⟩
  obtain ⟨hunread, -⟩ := Inbox.recv_eq_some hrecv
  have hstepped := hr.served.stepped p hp
  rw [unread, hinbox, Option.map_some, Option.getD_some, hunread] at hstepped
  rw [SimState.post, ← hstepped, List.append_assoc, List.getElem?_append_right le_rfl, Nat.sub_self]
  rfl

omit [Crates] [Rand R] in
/-- What `p` was stepped with once it is given one more event. -/
theorem steppedWith_taken (q : PeerId) (event : NetEvent) (inbox : Inbox) :
    (r.taken p event inbox).steppedWith q = r.steppedWith q ++ if p = q then [event] else [] := by
  rw [steppedWith, steppedWith, SimRunner.taken, List.filter_append, List.map_append]
  by_cases hq : p = q <;> simp [hq]

omit [Rand R] in
/-- **Giving an engine its next event** keeps the simulation ready, and nobody's mail changes. -/
theorem Ready.taken (hr : r.Ready) {inbox inbox' : Inbox} {event : NetEvent}
    (hinbox : r.hub.inboxes[p]? = some inbox) (hrecv : inbox.recv = some (event, inbox')) :
    (r.taken p event inbox').Ready ∧ (r.taken p event inbox').hub.post = r.hub.post
    ∧ ∀ q, Later q r (r.taken p event inbox') := by
  obtain ⟨-, hevents, hclosed, -⟩ := Inbox.recv_eq_some hrecv
  have hget : ∀ q, (r.hub.inboxes.insert p inbox')[q]? = if p = q then some inbox' else r.hub.inboxes[q]? :=
    fun q => BTreeMap.get_insert _ _ _ _
  have hmem : ∀ q, q ∈ r.hub.inboxes.insert p inbox' ↔ q ∈ r.hub.inboxes := by
    intro q
    rw [BTreeMap.mem_iff_get, BTreeMap.mem_iff_get, hget]
    split
    case isTrue hq => exact ⟨fun _ => ⟨inbox, hq ▸ hinbox⟩, fun _ => ⟨inbox', rfl⟩⟩
    case isFalse => exact Iff.rfl
  have hnoted := hr.prompt.noted p
  -- an inbox keeps the events taken out of it, so the post stays as it was
  have hpost : (r.taken p event inbox').hub.post = r.hub.post := by
    funext q
    have hreceived : (r.taken p event inbox').hub.received q = r.hub.received q := by
      show ((r.hub.inboxes.insert p inbox')[q]?.map (·.events)).getD [] = _
      rw [SimState.received, hget]
      split
      case isTrue hq =>
        subst hq
        rw [hinbox, Option.map_some, Option.map_some, hevents]
      case isFalse => rfl
    rw [SimState.post, hreceived]
    rfl
  refine ⟨⟨(hr.served.taken hinbox hrecv).1, ?_, fun q => (hmem q).trans (hr.hosted q), hr.own, hr.strangers,
    hpost ▸ hr.senders⟩, hpost, fun q => ⟨List.prefix_append _ _, le_rfl, ?_, List.prefix_rfl, fun _ => Iff.rfl⟩⟩
  · refine { hnoted with
      known := fun entry hentry dst ev hpending => (hmem dst).mpr (hnoted.known entry hentry dst ev hpending)
      live := fun q inbox₁ hinbox₁ => ?_ }
    have hinbox₁' : (r.hub.inboxes.insert p inbox')[q]? = some inbox₁ := hinbox₁
    rw [hget] at hinbox₁'
    split at hinbox₁'
    case isTrue =>
      obtain rfl := Option.some.inj hinbox₁'
      exact hclosed.trans (hr.prompt.live p inbox hinbox)
    case isFalse => exact hr.prompt.live q inbox₁ hinbox₁'
  · rw [steppedWith_taken]
    exact List.prefix_append _ _

/-- **A small step** keeps the simulation ready and takes nothing back. -/
theorem Move.ready (h : Move pub r r') (hr : r.Ready) : r'.Ready ∧ ∀ q, Later q r r' := by
  -- an engine is called, an entry leaves the heap, time passes, or an event is taken
  cases h with
  | @performed p e i he hi =>
    obtain ⟨hvalid, hrecv, hknown, -⟩ := hi.known
    exact ⟨(hr.perform pub he hvalid hrecv hknown).1, hr.perform_later pub he hrecv⟩
  | @popped step hub hpop =>
    obtain ⟨hprompt, hpost⟩ := hr.prompt.popped hpop
    obtain ⟨-, hnow⟩ := hr.prompt.toTimed.popped hpop
    have htrace : hub.trace = r.hub.trace ∧ hub.simStart = r.hub.simStart := by
      cases hpop <;> exact ⟨rfl, rfl⟩
    refine ⟨⟨(hr.served.popped hpop).1, hprompt, fun q => hpop.mem_inboxes.trans (hr.hosted q), hr.own,
      hr.strangers, fun q ev hev => ?_⟩, fun q => ⟨?_, ?_, List.prefix_rfl, List.prefix_rfl, fun _ => Iff.rfl⟩⟩
    · have hev' : ev ∈ hub.post q := hev
      rw [hpost] at hev'
      exact hr.senders q ev hev'
    · show r.hub.trace <+: hub.trace
      rw [htrace.1]
    · show r.hub.simStart + r.hub.now ≤ hub.simStart + hub.now
      rw [htrace.2]
      exact Nat.add_le_add_left hnow _
  | waited hlater hdue =>
    exact ⟨⟨⟨hr.served.inbox, hr.served.stepped⟩, hr.prompt.setNow hlater hdue, hr.hosted, hr.own, hr.strangers,
      hr.senders⟩, fun q => ⟨List.prefix_rfl, Nat.add_le_add_left hlater _, List.prefix_rfl, List.prefix_rfl,
      fun _ => Iff.rfl⟩⟩
  | noted p =>
    exact ⟨⟨⟨hr.served.inbox, hr.served.stepped⟩, hr.prompt.noted p, hr.hosted, hr.own, hr.strangers,
      hr.senders⟩, fun q => ⟨List.prefix_append _ _, le_rfl, List.prefix_rfl, List.prefix_rfl,
      fun _ => Iff.rfl⟩⟩
  | @read p e inbox inbox' event he hinbox hrecv =>
    obtain ⟨hready, -, hlater⟩ := hr.taken hinbox hrecv
    have hsender := hr.senders p event (List.mem_of_getElem? (hr.next he hinbox hrecv))
    refine ⟨(hready.perform pub he (i := .event event) trivial (by simp) (known_event hsender)).1, fun q => ?_⟩
    exact (hlater q).trans (hready.perform_later pub he (by simp) q)

/-! ## On the mesh -/

/-- **A call of an engine is a turn of the mesh** if it drops no `SessionOpen`, or submits nothing of the
message.  `M` is the mesh before the engine took its event out of the inbox. -/
theorem Ready.turn (pub : Publication) {M : Mesh} (hr : r.Ready) (he : r.engines[p]? = some e) (hrecv : i ≠ .recv)
    (hM : r.mesh got = { M with read := Function.update M.read p (M.read p + i.reads) })
    (hnext : ∀ ev, i = .event ev → (M.mail p)[M.read p]? = some ev) :
    ∃ new, (r.perform p e i).2.hub.trace = r.hub.trace ++ new
      ∧ (SimState.OpensKept new
          ∨ (∀ sent ∈ ((r.lent p e).step i).2.net.log, sent.msg.sessionKey? ≠ some pub.key) →
        ∃ lost, Mesh.Turn pub M ((r.perform p e i).2.mesh got) p i (r.lent p e) lost
          ∧ ∀ dst, Mesh.chunksTo dst lost = SimState.droppedChunks p dst new) := by
  obtain ⟨e', hperform, hidle, -, hcalled⟩ := perform_called pub hr.prompt (hr.own p e he).1 i
  obtain ⟨new, htrace, hconveyed⟩ := hcalled.conveyed
  have hengines : M.engines = (r.mesh got).engines := by rw [hM]
  have hmail : M.mail = r.hub.post := (congrArg Mesh.mail hM).symm
  have hread : (r.mesh got).read = Function.update M.read p (M.read p + i.reads) := congrArg Mesh.read hM
  have hout : M.out = (r.mesh got).out := by rw [hM]
  have hget : ∀ q, (r.engines.insert p e')[q]? = if p = q then some e' else r.engines[q]? :=
    fun q => BTreeMap.get_insert _ _ _ _
  rw [hperform]
  refine ⟨new, htrace, fun hcase => ?_⟩
  obtain ⟨lost, hconveys, hchunks⟩ := hconveyed hcase
  -- the caller, what was put in the mail, the engines, and what was handed on
  refine ⟨lost, ⟨?_, hnext, ?_, ?_, hread, ?_⟩, hchunks⟩
  · refine ⟨e.onWire .idle, ?_, Wire.over (⟨p, r.hub⟩ : SimNetEndpoint R), r.hub.clock, rfl, rfl⟩
    rw [hengines]
    show r.engines[p]?.map (·.onWire .idle) = _
    rw [he]
    rfl
  · rw [hmail]
    exact hconveys
  · funext q
    rw [hengines]
    show ((r.engines.insert p e')[q]?.map (·.onWire .idle)) = _
    rw [hget]
    by_cases hq : p = q
    · subst hq
      rw [if_pos rfl, Function.update_self, Option.map_some, hidle]
    · rw [if_neg hq, Function.update_of_ne (Ne.symm hq)]
      rfl
  · funext q
    rw [hout]
    show got q ++ ((r.engines.insert p e')[q]?.map (·.delivered.queue)).getD [] = _
    rw [hget]
    by_cases hq : p = q
    · subst hq
      have hsink : e'.delivered = ((r.lent p e).step i).2.delivered := congrArg Engine.delivered hidle
      obtain ⟨more, hmore⟩ := ((r.lent p e).step_sink hrecv).queue
      have hold : (r.mesh got).out p = got p ++ (r.lent p e).delivered.queue := by
        show got p ++ (r.engines[p]?.map (·.delivered.queue)).getD [] = _
        rw [he]
        rfl
      rw [if_pos rfl, Function.update_self, hold, ← hmore, List.drop_left, List.append_assoc, hmore,
        Option.map_some, Option.getD_some, hsink]
    · rw [if_neg hq, Function.update_of_ne (Ne.symm hq)]
      rfl

/-- What the relay of `p` needs of a simulation from its `n`th trace entry on: no `SessionOpen` is dropped,
the session of a publish at `t₀` has not expired, there is room in the relay's sink, and no chunk that the
relay is stepped with collides with a shard. -/
structure Calm (pub : Publication) (t₀ : Instant) (n : Nat) (p : PeerId) (r : SimRunner R) : Prop where
  opens : SimState.OpensKept (r.hub.trace.drop n)
  time : r.hub.wallNow ≤ t₀ + ({} : EngineConfig).activeSessionTtl
  room : (r.sink p).length < deliverySinkCapacity
  collisions : ∀ peer idx data, .chunk peer pub.c pub.m idx data ∈ r.steppedWith p →
    ∀ b ∈ pub.shards, sha256 data = sha256 b → data = b

omit [Rand R] in
/-- A simulation that is calm was calm before. -/
theorem Calm.earlier {n : Nat} (h : r'.Calm pub t₀ n p) (hlater : Later p r r') : r.Calm pub t₀ n p where
  opens entry hentry := h.opens entry ((hlater.trace.drop n).subset hentry)
  time := hlater.wallNow.trans h.time
  room := hlater.sink.length_le.trans_lt h.room
  collisions peer idx data hmem := h.collisions peer idx data (hlater.stepped.subset hmem)

/-- An engine with the simulation's clock has its turn in time and with room in its sink. -/
theorem Calm.attended {n : Nat} (h : r.Calm pub t₀ n p) (hr : r.Ready) (he : r.engines[p]? = some e)
    (hsince : t₀ ≤ r.hub.wallNow) : (r.lent p e).Within t₀ ∧ (r.lent p e).delivered.hasRoom := by
  obtain ⟨-, hconfig, hcapacity, hclosed⟩ := hr.own p e he
  have hlent : (r.lent p e).config = {} := hconfig
  have hsink : (r.sink p).length = e.delivered.queue.length := by
    rw [sink, he]
    rfl
  refine ⟨⟨fun _ => hsince, fun _ => ?_, ?_⟩, ?_⟩
  · rw [hlent]
    exact h.time
  · rw [hlent]
  · show (!e.delivered.closed && decide (e.delivered.queue.length < e.delivered.capacity)) = true
    rw [hclosed, hcapacity, ← hsink]
    simpa using h.room

omit [Rand R] in
/-- An event that was taken out of the inbox counts as read. -/
theorem Ready.mesh_taken (hr : r.Ready) {inbox inbox' : Inbox} {event : NetEvent}
    (hinbox : r.hub.inboxes[p]? = some inbox) (hrecv : inbox.recv = some (event, inbox')) :
    (r.taken p event inbox').mesh got
      = { r.mesh got with read := Function.update (r.mesh got).read p ((r.mesh got).read p + 1) } := by
  obtain ⟨-, hpost, -⟩ := hr.taken hinbox hrecv
  have hread : ((r.taken p event inbox').mesh got).read
      = Function.update (r.mesh got).read p ((r.mesh got).read p + 1) := by
    funext q
    show ((r.taken p event inbox').steppedWith q).length = _
    rw [steppedWith_taken]
    by_cases hq : p = q
    · subst hq
      rw [if_pos rfl, Function.update_self, List.length_append]
      rfl
    · rw [if_neg hq, Function.update_of_ne (Ne.symm hq), List.append_nil]
      rfl
  rw [← hread, mesh, hpost]
  rfl

/-- What a small step is on the mesh: nothing, or the turn of an engine.  `r₁` is the simulation when the
engine is called. -/
inductive Meshed (pub : Publication) (got : PeerId → List DeliveredMessage) (r r' : SimRunner R) : Prop
  | still (h : r'.mesh got = r.mesh got)
  | turn {p : PeerId} {e : Engine RsStrategy (SimNetEndpoint R)} {i : Input RsStrategy} {r₁ : SimRunner R}
      {new : List TraceEntry} (hr : r₁.Ready) (he : r₁.engines[p]? = some e) (hbefore : ∀ q, Later q r r₁)
      (hafter : ∀ q, Later q r₁ r') (hi : i.Valid)
      (hother : ∀ strategy b, i ≠ .publish pub.c pub.m strategy b)
      (hstepped : ∀ ev, i = .event ev → ev ∈ r₁.steppedWith p)
      (hnext : ∀ ev, i = .event ev → ev ∈ (r.mesh got).mail p)
      (hengine : (r.mesh got).engines p = some (e.onWire .idle))
      (htrace : r'.hub.trace = r₁.hub.trace ++ new)
      (hturn : SimState.OpensKept new
          ∨ (∀ sent ∈ ((r₁.lent p e).step i).2.net.log, sent.msg.sessionKey? ≠ some pub.key) →
        ∃ lost, Mesh.Turn pub (r.mesh got) (r'.mesh got) p i (r₁.lent p e) lost)

/-- **A small step on the mesh.** -/
theorem Move.meshed (h : Move pub r r') (hr : r.Ready) (got : PeerId → List DeliveredMessage) :
    Meshed pub got r r' := by
  cases h with
  | @performed p e i he hi hother =>
    obtain ⟨hvalid, hrecv, hknown, hevent⟩ := hi.known
    have hsame : r.mesh got
        = { r.mesh got with read := Function.update (r.mesh got).read p ((r.mesh got).read p + i.reads) } := by
      have hreads : i.reads = 0 := by
        cases i with
        | event ev => exact absurd rfl (hevent ev)
        | subscribe | connect | publish | recv => rfl
      rw [hreads, Nat.add_zero, Function.update_eq_self]
    obtain ⟨new, htrace, hturn⟩ := hr.turn pub he hrecv hsame fun ev h => absurd h (hevent ev)
    refine .turn hr he (fun q => .refl q r) (hr.perform_later pub he hrecv) hvalid hother
      (fun ev h => absurd h (hevent ev)) (fun ev h => absurd h (hevent ev)) ?_ htrace fun hcase => ?_
    · show r.engines[p]?.map (·.onWire .idle) = _
      rw [he]
      rfl
    · obtain ⟨lost, hturn, -⟩ := hturn hcase
      exact ⟨lost, hturn⟩
  | @popped step hub hpop =>
    refine .still ?_
    rw [mesh, mesh, (hr.prompt.popped hpop).2]
    rfl
  | waited | noted => exact .still rfl
  | @read p e inbox inbox' event he hinbox hrecv =>
    obtain ⟨hready, -, hlater⟩ := hr.taken hinbox hrecv
    have hnext := hr.next he hinbox hrecv
    obtain ⟨new, htrace, hturn⟩ := hready.turn pub (M := r.mesh got) he (i := .event event) (by simp)
      (hr.mesh_taken hinbox hrecv) fun ev hev => by
        cases hev
        exact hnext
    refine .turn hready he hlater (hready.perform_later pub he (by simp)) (i := .event event) trivial (by simp)
      (fun ev hev => ?_) (fun ev hev => ?_) ?_ htrace fun hcase => ?_
    · cases hev
      rw [steppedWith_taken, if_pos rfl]
      exact List.mem_append_right _ (List.mem_singleton_self _)
    · cases hev
      exact List.mem_of_getElem? hnext
    · show r.engines[p]?.map (·.onWire .idle) = _
      have he' : r.engines[p]? = some e := he
      rw [he']
      rfl
    · obtain ⟨lost, hturn, -⟩ := hturn hcase
      exact ⟨lost, hturn⟩

/-- **A small step before the publish**: nobody hears of the message, whatever is dropped. -/
theorem Move.unheard (h : Move pub r r') (hr : r.Ready)
    (hprost : Crates.preambleDecode pub.preambleBytes = .ok pub.preamble)
    (hM : (r.mesh got).Unheard pub) : (r'.mesh got).Unheard pub := by
  cases h.meshed hr got with
  | still hsame => rwa [hsame]
  | @turn p e i r₁ new _ he _ _ hi hother _ hnext hengine _ hturn =>
    -- the engine says nothing of the message, so no open of it can be dropped
    have hforeign : i.Foreign pub.c pub.m := by
      refine ⟨fun hfeeds => ?_, hother⟩
      cases i with
      | event ev => exact hM.quiet p ev (hnext ev rfl) hfeeds
      | subscribe | connect | publish | recv => exact hfeeds
    have hledger : (r₁.lent p e).ledger pub.key = (e.onWire .idle).ledger pub.key :=
      Engine.ledger_lent (e := e.onWire .idle) rfl r₁.hub.clock _
    have hblank : ((r₁.lent p e).ledger pub.key).Blank pub.key := by
      rw [hledger]
      exact hM.blank p _ hengine
    obtain ⟨lost, hturn⟩ := hturn (.inr (Engine.step_blank hforeign hblank).unsubmitted)
    exact hturn.unheard hprost (Engine.hostsRelays_of_valid hi) hother hM

/-- **A small step after the publish** is a move of the mesh, or none. -/
theorem Move.attended {n : Nat} (h : Move pub r r') (hr : r.Ready) (hcalm : r'.Calm pub t₀ n p)
    (hn : n ≤ r.hub.trace.length) (hsince : t₀ ≤ r.hub.wallNow) :
    Relation.ReflTransGen (Mesh.Move pub (Mesh.Attended pub t₀ p)) (r.mesh got) (r'.mesh got) := by
  cases h.meshed hr got with
  | still hsame => rw [hsame]
  | @turn q e i r₁ new hr₁ he hbefore hafter hi hother hstepped _ _ htrace hturn =>
    have hcalm₁ := hcalm.earlier (hafter p)
    have hkept : SimState.OpensKept new := fun entry hentry => hcalm.opens entry (by
      rw [htrace, List.drop_append_of_le_length (hn.trans (hbefore p).trace.length_le)]
      exact List.mem_append_right _ hentry)
    obtain ⟨lost, hturn⟩ := hturn (.inl hkept)
    refine .single (.turn hturn (Engine.hostsRelays_of_valid hi) hother fun hq => ?_)
    subst hq
    obtain ⟨hwithin, hroom⟩ := hcalm₁.attended hr₁ he (hsince.trans (hbefore q).wallNow)
    exact ⟨hwithin, hroom, fun peer idx data heq => hcalm₁.collisions peer idx data (hstepped _ heq)⟩

end SimRunner

end Ethp2p
