/-
# Ethp2p.Sim.LossTolerance — what a lossy simulation may lose of a published message.

A scenario is a sequence of calls on the runner, and a call is a sequence of small steps (`apply_moves`) or
it empties a sink.  So a scenario in which a message is published once is a run of a mesh, and what an
application is handed at another peer is what `Mesh.delivers` says (`publish_loss_tolerant`): the message, once, if
the shards its engine was stepped with are enough, and nothing under its key otherwise.  When the simulation
is quiescent, the shards are enough for each subscriber that the publish has lost no more than the parity.

What else a relay needs is `Calm`.  Messages that are held back are not covered: a `SessionOpen` that is
delayed longer than its chunks lets chunks through that are parked at most, and dropped beyond the limits.
-/
import Ethp2p.Sim.Moves

namespace Ethp2p

namespace SimRunner

section Scenarios

variable {R : Type} [Crates] [Rand R] {r r' : SimRunner R} {pub : Publication} {p : PeerId}
  {got : PeerId → List DeliveredMessage} {t₀ : Instant}

/-! ## Calls as small steps -/

/-- The call publishes the message, or another one under its key. -/
def Op.Publishes (pub : Publication) (op : Op) : Prop :=
  ∃ origin payload config, op = .publish origin pub.c pub.m payload config

/-- A script stays one while engines are called. -/
theorem Scripted.perform {i i' : Input RsStrategy} (hi : r.Scripted i) {p : PeerId} (hp : p ∈ r.engines)
    (e : Engine RsStrategy (SimNetEndpoint R)) : (r.perform p e i').2.Scripted i := by
  cases i with
  | connect other => exact ((perform_unmoved hp e i').hosted other).mpr hi
  | subscribe | publish | event | recv => exact hi

/-- The calls of a script are moves, one after the other. -/
theorem performEach_moves (calls : List (PeerId × Input RsStrategy)) (hcalls : ∀ call ∈ calls,
      r.Scripted call.2 ∧ ∀ strategy b, call.2 ≠ .publish pub.c pub.m strategy b) :
    Relation.ReflTransGen (Move pub) r (performEach calls r).2 := by
  induction calls generalizing r with
  | nil => exact .refl
  | cons call calls ih =>
    obtain ⟨peer, i⟩ := call
    obtain ⟨⟨hscripted, hother⟩, hrest⟩ := List.forall_mem_cons.mp hcalls
    unfold performEach
    cases hengine : r.engines[peer]? with
    | none => exact ih hrest
    | some engine =>
      have hp := (BTreeMap.mem_iff_get _ _).mpr ⟨engine, hengine⟩
      have hmove : Move pub r (r.perform peer engine i).2 := .performed hengine hscripted hother
      have hrest' : ∀ call ∈ calls, (r.perform peer engine i).2.Scripted call.2
          ∧ ∀ strategy b, call.2 ≠ .publish pub.c pub.m strategy b := fun call hcall =>
        ⟨(hrest call hcall).1.perform hp engine, (hrest call hcall).2⟩
      dsimp only
      rcases h : r.perform peer engine i with ⟨err | _, r₁⟩ <;> rw [h] at hmove hrest'
      · exact .single hmove
      · exact .head hmove (ih hrest')

omit [Rand R] in
theorem popDue_moves [Rand R] (pub : Publication) (r : SimRunner R) (target : Duration) (fuel : Nat) :
    Relation.ReflTransGen (Move pub) r { r with hub := SimState.popDue target fuel r.hub } :=
  SimState.popDue_induct (Q := fun hub => Relation.ReflTransGen (Move pub) r { r with hub })
    (fun _ _ _ hpop hs => hs.tail (.popped hpop)) target fuel .refl

/-- Serving a popped entry is at most one small step. -/
theorem serve_moves (pub : Publication) (r : SimRunner R) (step : PumpStep) :
    Relation.ReflTransGen (Move pub) r (r.serve step).2 := by
  cases step with
  | woke => exact .refl
  | deliveredTo peer =>
    cases hengine : r.engines[peer]? with
    | none =>
      simp only [serve, hengine]
      exact .refl
    | some engine =>
      cases hinbox : (r.hub.recordEngineStep peer).inboxes[peer]? with
      | none =>
        simp only [serve, hengine, hinbox]
        exact .single (.noted peer)
      | some inbox =>
        cases hrecv : inbox.recv with
        | none =>
          simp only [serve, hengine, hinbox, hrecv]
          exact .single (.noted peer)
        | some next =>
          simp only [serve, hengine, hinbox, hrecv]
          exact .single (.read hengine hinbox hrecv)

/-- Everything a simulation does on its way to quiescence is made of moves. -/
theorem quiesce_moves (max budget steps : Nat) (r : SimRunner R) :
    Relation.ReflTransGen (Move pub) r (r.quiesce max budget steps).2 := by
  induction budget generalizing r steps with
  | zero =>
    unfold quiesce
    cases hnext : r.hub.popNext with
    | none => exact .refl
    | some next => exact .single (.popped (SimState.popNext_eq_some hnext))
  | succ budget ih =>
    unfold quiesce
    cases hnext : r.hub.popNext with
    | none => exact .refl
    | some next =>
      obtain ⟨step, hub⟩ := next
      have hserved := (Relation.ReflTransGen.single (.popped (SimState.popNext_eq_some hnext))).trans
        (serve_moves pub { r with hub } step)
      dsimp only
      rcases h : SimRunner.serve { r with hub } step with ⟨(_ | (err | _)), r₁⟩ <;> rw [h] at hserved
      · exact hserved
      · exact hserved
      · exact hserved.trans (ih (steps + 1) r₁)

/-- **A call is a sequence of small steps**, unless it empties a sink or publishes the message. -/
theorem apply_moves (r : SimRunner R) {op : Op} (hother : ¬ op.Publishes pub)
    (htakes : ∀ peer, op ≠ .takeDeliveries peer) : Relation.ReflTransGen (Move pub) r (r.apply op) := by
  -- each operation of the harness is a sequence of moves of the runner
  cases op with
  | subscribeAll channel config =>
    refine performEach_moves _ fun call hcall => ?_
    obtain ⟨peer, -, rfl⟩ := List.mem_map.mp hcall
    exact ⟨⟨config, _, rfl⟩, by simp⟩
  | connectFullMesh =>
    refine performEach_moves _ fun call hcall => ?_
    obtain ⟨peer, -, hcall⟩ := List.mem_flatMap.mp hcall
    obtain ⟨other, hmem, rfl⟩ := List.mem_map.mp hcall
    exact ⟨Std.ExtTreeMap.mem_keys.mp (List.mem_filter.mp hmem).1, by simp⟩
  | publish origin channel messageId payload config =>
    show Relation.ReflTransGen _ r (r.publish origin channel messageId payload config).2
    unfold publish
    split
    · exact .refl
    · dsimp only
      split
      · exact .refl
      case h_2 strategy hnew =>
        split
        · exact .refl
        case h_2 engine hengine =>
          refine .single (.performed hengine (i := .publish channel messageId strategy _)
            ⟨payload, config, _, hnew⟩ fun strategy' b heq => ?_)
          cases heq
          exact hother ⟨origin, payload, config, rfl⟩
  | takeDeliveries peer => exact absurd rfl (htakes peer)
  | pump =>
    show Relation.ReflTransGen _ r { r with hub := (r.hub.popNext.map (·.2)).getD r.hub }
    cases hnext : r.hub.popNext with
    | none => exact .refl
    | some next => exact .single (.popped (SimState.popNext_eq_some hnext))
  | advanceTo target =>
    show Relation.ReflTransGen _ r { r with hub := r.hub.advanceTo target }
    have hpopped := popDue_moves pub r target r.hub.heap.size
    unfold SimState.advanceTo
    dsimp only
    split
    case isTrue hlater =>
      refine hpopped.tail (.waited (Nat.le_of_lt hlater) fun entry hentry => ?_)
      exact Nat.le_of_lt (SimState.popDue_done target _ le_rfl entry hentry)
    case isFalse => exact hpopped
  | runToQuiescence maxSteps => exact quiesce_moves maxSteps maxSteps 0 r

/-! ## Emptying sinks -/

/-- What a call hands to the application at `p`. -/
def hands (r : SimRunner R) (p : PeerId) : Op → List DeliveredMessage
  | .takeDeliveries q => if q = p then (r.takeDeliveries q).1 else []
  | _ => []

/-- What the application at `p` is handed by the calls of a scenario, and what is left in the sink. -/
def handed (p : PeerId) : SimRunner R → List Op → List DeliveredMessage
  | r, [] => r.sink p
  | r, op :: ops => r.hands p op ++ handed p (r.apply op) ops

omit [Crates] [Rand R] in
/-- An application is handed the messages when it asks for them. -/
theorem hands_takeDeliveries (r : SimRunner R) (p q : PeerId) :
    r.hands p (.takeDeliveries q) = if q = p then r.sink p else [] := by
  have hfst : (r.takeDeliveries q).1 = r.sink q := by
    unfold takeDeliveries sink
    cases hengine : r.engines[q]? <;> rfl
  rw [hands, hfst]
  split
  case isTrue hq => rw [hq]
  case isFalse => rfl

omit [Crates] [Rand R] in
theorem hands_of_ne (r : SimRunner R) (p : PeerId) {op : Op} (h : ∀ q, op ≠ .takeDeliveries q) :
    r.hands p op = [] := by
  cases op with
  | takeDeliveries q => exact absurd rfl (h q)
  | _ => rfl

omit [Rand R] in
/-- **Emptying a sink** keeps the simulation ready. -/
theorem Ready.takeDeliveries (hr : r.Ready) (q : PeerId) : (r.takeDeliveries q).2.Ready := by
  have hmoved := takeDeliveries_unmoved r q
  cases hengine : r.engines[q]? with
  | none =>
    have hsame : (r.takeDeliveries q).2 = r := by simp only [SimRunner.takeDeliveries, hengine]
    rwa [hsame]
  | some e =>
    have htaken : (r.takeDeliveries q).2 = { r with engines := r.engines.insert q e.emptied } := by
      simp only [SimRunner.takeDeliveries, hengine]
      rfl
    rw [htaken] at hmoved ⊢
    -- an engine is as before, or it is the one that was emptied
    have hold : ∀ {p : PeerId} {e' : Engine RsStrategy (SimNetEndpoint R)},
        (r.engines.insert q e.emptied)[p]? = some e' →
        ∃ e₁ : Engine RsStrategy (SimNetEndpoint R), r.engines[p]? = some e₁
          ∧ (e' = e₁ ∨ e' = e₁.emptied) := by
      intro p e' he'
      rw [BTreeMap.get_insert] at he'
      split at he'
      case isTrue hq =>
        subst hq
        exact ⟨e, hengine, .inr (Option.some.inj he').symm⟩
      case isFalse => exact ⟨e', he', .inl rfl⟩
    refine ⟨hmoved.served hr.served, hr.prompt, fun p => (hr.hosted p).trans (hmoved.hosted p).symm,
      fun p e' he' => ?_, fun p e' x he' hx => ?_, fun p ev hev => (hmoved.hosted _).mpr (hr.senders p ev hev)⟩
    · obtain ⟨e₁, he₁, rfl | rfl⟩ := hold he'
      · exact hr.own p e' he₁
      · exact hr.own p e₁ he₁
    · have hx' : x ∉ r.engines := fun h => hx ((hmoved.hosted x).mpr h)
      obtain ⟨e₁, he₁, rfl | rfl⟩ := hold he'
      · exact hr.strangers p e' x he₁ hx'
      · have hout := hr.strangers p e₁ x he₁ hx'
        exact ⟨hout.factories, hout.unconnected, fun k => { hout.shuns k with }, hout.unsent⟩

omit [Crates] [Rand R] in
/-- On the mesh it is emptying a sink, or nothing; what was in the sink is handed over. -/
theorem mesh_takeDeliveries (r : SimRunner R) (got : PeerId → List DeliveredMessage) (q : PeerId) :
    let got' := Function.update got q (got q ++ r.sink q)
    (r.takeDeliveries q).2.mesh got' = r.mesh got
    ∨ ∃ e, (r.mesh got).engines q = some e ∧ (r.takeDeliveries q).2.mesh got' = (r.mesh got).emptied q e := by
  intro got'
  cases hengine : r.engines[q]? with
  | none =>
    have hsame : (r.takeDeliveries q).2 = r := by simp only [SimRunner.takeDeliveries, hengine]
    have hsink : r.sink q = [] := by
      rw [sink, hengine]
      rfl
    have hgot : got' = got := by
      show Function.update got q (got q ++ r.sink q) = got
      rw [hsink, List.append_nil, Function.update_eq_self]
    exact .inl (by rw [hsame, hgot])
  | some e =>
    have htaken : (r.takeDeliveries q).2 = { r with engines := r.engines.insert q e.emptied } := by
      simp only [SimRunner.takeDeliveries, hengine]
      rfl
    have hget : ∀ p, (r.engines.insert q e.emptied)[p]? = if q = p then some e.emptied else r.engines[p]? :=
      fun p => BTreeMap.get_insert _ _ _ _
    -- the engine of `q` is emptied, and what it held goes to the reader
    have hengines : ((r.takeDeliveries q).2.mesh got').engines
        = Function.update (r.mesh got).engines q (some (e.onWire .idle).emptied) := by
      funext p
      rw [htaken]
      show (r.engines.insert q e.emptied)[p]?.map (·.onWire .idle) = _
      rw [hget]
      by_cases hp : q = p
      · subst hp
        rw [if_pos rfl, Function.update_self]
        rfl
      · rw [if_neg hp, Function.update_of_ne (Ne.symm hp)]
        rfl
    have hout : ((r.takeDeliveries q).2.mesh got').out = (r.mesh got).out := by
      funext p
      rw [htaken]
      show Function.update got q (got q ++ r.sink q) p
        ++ ((r.engines.insert q e.emptied)[p]?.map (·.delivered.queue)).getD [] = got p ++ r.sink p
      rw [hget]
      by_cases hp : q = p
      · subst hp
        rw [if_pos rfl, Function.update_self]
        exact List.append_nil _
      · rw [if_neg hp, Function.update_of_ne (Ne.symm hp)]
        rfl
    refine .inr ⟨e.onWire .idle, ?_, ?_⟩
    · show r.engines[q]?.map (·.onWire .idle) = _
      rw [hengine]
      rfl
    · rw [Mesh.emptied, ← hengines, ← hout, htaken]
      rfl

/-! ## Scenarios on the mesh -/

/-- A call is small steps, or it empties a sink. -/
theorem apply_cases (r : SimRunner R) {op : Op} (hother : ¬ op.Publishes pub) :
    (∃ q, op = .takeDeliveries q) ∨ (∀ q, op ≠ .takeDeliveries q)
      ∧ Relation.ReflTransGen (Move pub) r (r.apply op) := by
  by_cases htakes : ∃ q, op = .takeDeliveries q
  · exact .inl htakes
  · have hnone : ∀ q, op ≠ .takeDeliveries q := fun q hop => htakes ⟨q, hop⟩
    exact .inr ⟨hnone, apply_moves r hother hnone⟩

/-- Moves leave a simulation ready. -/
theorem Ready.moves (hr : r.Ready) (h : Relation.ReflTransGen (Move pub) r r') :
    r'.Ready ∧ ∀ q, Later q r r' := by
  induction h with
  | refl => exact ⟨hr, fun q => .refl q r⟩
  | tail _ hmove ih =>
    obtain ⟨hready, hlater⟩ := hmove.ready ih.1
    exact ⟨hready, fun q => (ih.2 q).trans (hlater q)⟩

/-- **Before the publish** small steps let nobody hear of the message. -/
theorem Ready.moves_unheard (hr : r.Ready) (h : Relation.ReflTransGen (Move pub) r r')
    (hprost : Crates.preambleDecode pub.preambleBytes = .ok pub.preamble)
    (hM : (r.mesh got).Unheard pub) : (r'.mesh got).Unheard pub := by
  induction h with
  | refl => exact hM
  | tail hbefore hmove ih => exact hmove.unheard (hr.moves hbefore).1 hprost ih

/-- **After the publish** small steps are a run of the mesh: what is calm in the end was calm all along. -/
theorem Ready.moves_attended {n : Nat} (hr : r.Ready) (h : Relation.ReflTransGen (Move pub) r r')
    (hcalm : r'.Calm pub t₀ n p) (hn : n ≤ r.hub.trace.length) (hsince : t₀ ≤ r.hub.wallNow) :
    Relation.ReflTransGen (Mesh.Move pub (Mesh.Attended pub t₀ p)) (r.mesh got) (r'.mesh got) := by
  induction h with
  | refl => exact .refl
  | tail hbefore hmove ih =>
    obtain ⟨hready, hlater⟩ := hr.moves hbefore
    refine (ih (hcalm.earlier ((hmove.ready hready).2 p))).trans ?_
    exact hmove.attended hready hcalm (hn.trans (hlater p).trace.length_le) (hsince.trans (hlater p).wallNow)

/-- As long as the message is not published, nobody hears of it. -/
theorem Ready.run_unheard (hr : r.Ready)
    (hprost : Crates.preambleDecode pub.preambleBytes = .ok pub.preamble)
    (hM : (r.mesh got).Unheard pub) (ops : List Op) (hops : ∀ op ∈ ops, ¬ op.Publishes pub) :
    (r.run ops).Ready ∧ ∃ got', ((r.run ops).mesh got').Unheard pub := by
  induction ops generalizing r got with
  | nil => exact ⟨hr, got, hM⟩
  | cons op ops ih =>
    obtain ⟨hop, hrest⟩ := List.forall_mem_cons.mp hops
    rcases apply_cases r hop with ⟨q, rfl⟩ | ⟨-, hmoves⟩
    · have hM' : ((r.takeDeliveries q).2.mesh (Function.update got q (got q ++ r.sink q))).Unheard pub := by
        rcases mesh_takeDeliveries r got q with hsame | ⟨e, he, hemptied⟩
        · rwa [hsame]
        · rw [hemptied]
          exact hM.emptied he
      exact ih (hr.takeDeliveries q) hM' hrest
    · exact ih (hr.moves hmoves).1 (hr.moves_unheard hmoves hprost hM) hrest

/-- A scenario is a run of the mesh as long as the relay is left calm. -/
theorem Ready.run_attended {n : Nat} (hr : r.Ready) (got : PeerId → List DeliveredMessage) (ops : List Op)
    (hops : ∀ op ∈ ops, ¬ op.Publishes pub) (hcalm : ∀ l, l <+: ops → (r.run l).Calm pub t₀ n p)
    (hn : n ≤ r.hub.trace.length) (hsince : t₀ ≤ r.hub.wallNow) :
    (r.run ops).Ready ∧ (∀ q, q ∈ (r.run ops).engines ↔ q ∈ r.engines)
    ∧ ∃ got', got' p ++ (r.run ops).sink p = got p ++ handed p r ops
      ∧ Relation.ReflTransGen (Mesh.Move pub (Mesh.Attended pub t₀ p)) (r.mesh got) ((r.run ops).mesh got') := by
  -- an operation takes deliveries or is a sequence of moves; both leave a mesh run
  induction ops generalizing r got with
  | nil => exact ⟨hr, fun _ => Iff.rfl, got, rfl, .refl⟩
  | cons op ops ih =>
    obtain ⟨hop, hrest⟩ := List.forall_mem_cons.mp hops
    have hcalm' : ∀ l, l <+: ops → ((r.apply op).run l).Calm pub t₀ n p := fun l hl =>
      hcalm (op :: l) (List.cons_prefix_cons.mpr ⟨rfl, hl⟩)
    rcases apply_cases r hop with ⟨q, rfl⟩ | ⟨hnone, hmoves⟩
    · have hlater : n ≤ (r.takeDeliveries q).2.hub.trace.length ∧ t₀ ≤ (r.takeDeliveries q).2.hub.wallNow := by
        unfold SimRunner.takeDeliveries
        split <;> exact ⟨hn, hsince⟩
      obtain ⟨hready, hhosted, got', hgot, hrun⟩ := ih (r := (r.takeDeliveries q).2)
        (hr.takeDeliveries q) (Function.update got q (got q ++ r.sink q)) hrest hcalm' hlater.1 hlater.2
      refine ⟨hready, fun x => (hhosted x).trans ((takeDeliveries_unmoved r q).hosted x), got', hgot.trans ?_, ?_⟩
      · rw [handed, hands_takeDeliveries]
        by_cases hq : q = p
        · subst hq
          rw [Function.update_self, if_pos rfl, List.append_assoc]
          rfl
        · rw [Function.update_of_ne (Ne.symm hq), if_neg hq]
          rfl
      · rcases mesh_takeDeliveries r got q with hsame | ⟨e, he, hemptied⟩
        · rw [← hsame]
          exact hrun
        · refine .head (.emptied he) ?_
          rw [← hemptied]
          exact hrun
    · obtain ⟨hready, hlater⟩ := hr.moves hmoves
      obtain ⟨hready', hhosted, got', hgot, hrun⟩ := ih hready got hrest hcalm'
        (hn.trans (hlater p).trace.length_le) (hsince.trans (hlater p).wallNow)
      refine ⟨hready', fun x => (hhosted x).trans ((hlater p).hosted x), got', hgot.trans ?_,
        (hr.moves_attended hmoves (hcalm' [] List.nil_prefix) hn hsince).trans hrun⟩
      rw [handed, hands_of_ne r p hnone, List.nil_append]

/-! ## New simulations -/

omit [Crates] [Rand R] in
/-- The engine of a peer in a new simulation. -/
theorem engines_new (peers : List PeerId) (plan : FaultPlan R) (simStart : Instant) (p : PeerId) :
    (new peers plan simStart).engines[p]? = if p ∈ peers
      then some (Engine.withConfig p ⟨p, (new peers plan simStart).hub⟩ ⟨deliverySinkCapacity, [], false⟩ {}
        (new peers plan simStart).hub.clock)
      else none := by
  rw [new, BTreeMap.get_foldl_insert]
  simp

omit [Crates] [Rand R] in
/-- The hub of a new simulation. -/
theorem hub_new (peers : List PeerId) (plan : FaultPlan R) (simStart : Instant) :
    (new peers plan simStart).hub = { SimState.new plan simStart with
      inboxes := peers.foldl (fun inboxes peer => inboxes.insert peer {}) ∅ } := by
  have hfold : ∀ (peers : List PeerId) (s : SimState R), peers.foldl SimState.endpoint s
      = { s with inboxes := peers.foldl (fun inboxes peer => inboxes.insert peer {}) s.inboxes } := by
    intro peers
    induction peers with
    | nil => exact fun s => rfl
    | cons peer peers ih => exact fun s => ih (s.endpoint peer)
  exact hfold peers (SimState.new plan simStart)

omit [Crates] [Rand R] in
/-- An engine of a new simulation, by its peer. -/
theorem engine_eq_new {peers : List PeerId} {plan : FaultPlan R} {simStart : Instant} {p : PeerId}
    {e : Engine RsStrategy (SimNetEndpoint R)} (he : (new peers plan simStart).engines[p]? = some e) :
    e = Engine.withConfig p ⟨p, (new peers plan simStart).hub⟩ ⟨deliverySinkCapacity, [], false⟩ {}
      (new peers plan simStart).hub.clock := by
  rw [engines_new] at he
  split at he
  · exact (Option.some.inj he).symm
  · cases he

omit [Crates] [Rand R] in
/-- An engine of the mesh of a new simulation. -/
theorem mesh_engine_eq_new {peers : List PeerId} {plan : FaultPlan R} {simStart : Instant} {p : PeerId}
    {e : Engine RsStrategy Wire} (he : ((new peers plan simStart).mesh fun _ => []).engines p = some e) :
    e = Engine.withConfig p .idle ⟨deliverySinkCapacity, [], false⟩ {} (new peers plan simStart).hub.clock := by
  have he' : (new peers plan simStart).engines[p]?.map (·.onWire .idle) = some e := he
  obtain ⟨e₁, he₁, rfl⟩ := Option.map_eq_some_iff.mp he'
  rw [engine_eq_new he₁]
  rfl

omit [Crates] [Rand R] in
/-- The inboxes of a new simulation. -/
theorem inboxes_new (peers : List PeerId) (plan : FaultPlan R) (simStart : Instant) (p : PeerId) :
    (new peers plan simStart).hub.inboxes[p]? = if p ∈ peers then some {} else none := by
  rw [hub_new]
  show (peers.foldl (fun inboxes peer => inboxes.insert peer {}) (∅ : BTreeMap PeerId Inbox))[p]? = _
  rw [BTreeMap.get_foldl_insert (fun _ => ({} : Inbox))]
  simp

omit [Crates] [Rand R] in
/-- Nothing is on its way in a new simulation. -/
theorem heap_new (peers : List PeerId) (plan : FaultPlan R) (simStart : Instant) :
    (new peers plan simStart).hub.heap.entries = [] := by
  rw [hub_new]
  rfl

omit [Crates] [Rand R] in
/-- Nobody has mail in a new simulation. -/
theorem post_new (peers : List PeerId) (plan : FaultPlan R) (simStart : Instant) (p : PeerId) :
    (new peers plan simStart).hub.post p = [] := by
  have hreceived : (new peers plan simStart).hub.received p = [] := by
    rw [SimState.received, inboxes_new]
    split <;> rfl
  rw [SimState.post, hreceived, SimState.inTransit, heap_new]
  rfl

omit [Crates] [Rand R] in
/-- Nobody was delivered a message in a new simulation. -/
theorem sink_new (peers : List PeerId) (plan : FaultPlan R) (simStart : Instant) (p : PeerId) :
    (new peers plan simStart).sink p = [] := by
  rw [sink, engines_new]
  split <;> rfl

omit [Crates] [Rand R] in
/-- The hub of a new simulation without delays holds nothing back. -/
theorem prompt_new (peers : List PeerId) {plan : FaultPlan R} (hplan : plan.Undelayed) (simStart : Instant) :
    (new peers plan simStart).hub.Prompt := by
  have hheap := heap_new peers plan simStart
  refine ⟨⟨?_, ?_⟩, ?_, ?_, ?_, fun p inbox hp => ?_⟩
  · simp [hheap]
  · simp [hheap]
  · simp [hheap]
  · rw [hub_new]
    exact hplan
  · simp [hheap]
  · rw [inboxes_new] at hp
    split at hp
    · obtain rfl := Option.some.inj hp
      rfl
    · cases hp

/-- A new engine has nothing to do with any other peer. -/
theorem outside_withConfig (p q : PeerId) (clock : Clock) :
    Engine.Outside q .recv 0
      (Engine.withConfig (S := RsStrategy) p Wire.idle ⟨deliverySinkCapacity, [], false⟩ {} clock) := by
  refine ⟨Engine.relayFactories_withConfig p Wire.idle _ {} _, by simp [Engine.withConfig],
    fun k => ?_, fun sent hsent => by cases hsent⟩
  rw [Engine.ledger_withConfig]
  refine ⟨?_, ?_, fun _ => rfl⟩ <;> simp [Ledger.Subscribed, Ledger.Attached]

omit [Rand R] in
/-- A new simulation is ready. -/
theorem ready_new (peers : List PeerId) {plan : FaultPlan R} (hplan : plan.Undelayed) (simStart : Instant) :
    (new peers plan simStart).Ready where
  served := (new_served peers plan simStart).1
  prompt := prompt_new peers hplan simStart
  hosted p := by
    rw [BTreeMap.mem_iff_get, BTreeMap.mem_iff_get, inboxes_new, engines_new]
    split <;> simp
  own p e he := by
    rw [engine_eq_new he]
    exact ⟨rfl, rfl, rfl, rfl⟩
  strangers p e q he _ := by
    rw [engine_eq_new he]
    exact outside_withConfig p q _
  senders p ev hev := by
    rw [post_new] at hev
    cases hev

omit [Rand R] in
/-- Nobody has heard of the message in a new simulation: nobody has mail, and the engines are blank. -/
theorem unheard_new (pub : Publication) (peers : List PeerId) (plan : FaultPlan R) (simStart : Instant) :
    ((new peers plan simStart).mesh fun _ => []).Unheard pub := by
  have hmail : ∀ p, ((new peers plan simStart).mesh fun _ => []).mail p = [] := post_new peers plan simStart
  have hout : ∀ p, ((new peers plan simStart).mesh fun _ => []).out p = [] := sink_new peers plan simStart
  -- nothing has been sent or taken: each field reads a new engine, inbox or sink
  exact {
    idle := fun p e he => by
      rw [mesh_engine_eq_new he]
      rfl
    orderly := fun p e he => by
      rw [mesh_engine_eq_new he]
      exact Engine.orderly_withConfig ..
    faithful := fun p e he => by
      rw [mesh_engine_eq_new he]
      exact Engine.faithful_withConfig p {} _ rfl rfl
    told := fun p e q he hq => by
      rw [mesh_engine_eq_new he] at hq
      simp [Engine.withConfig] at hq
    heralded := fun p before ev after heq => by
      rw [hmail] at heq
      simp at heq
    genuine := fun p ev hev => by
      rw [hmail] at hev
      cases hev
    read := fun p => Nat.zero_le _
    blank := fun p e he => by
      rw [mesh_engine_eq_new he, Engine.ledger_withConfig]
      constructor <;> simp [Wire.idle]
    quiet := fun p ev hev => by
      rw [hmail] at hev
      cases hev
    unput := fun p d hd => by
      rw [hout] at hd
      cases hd }

/-! ## The publish -/

/-- The call publishes the message from the engine of the origin. -/
theorem apply_publish (pub : Publication) {o : PeerId} {e : Engine RsStrategy (SimNetEndpoint R)} (he : r.engines[o]? = some e) :
    ∃ seed strategy, RsStrategy.newOriginWithSeed pub.payload pub.config seed = .ok strategy
      ∧ r.apply (.publish o pub.c pub.m pub.payload pub.config)
        = (r.perform o e (.publish pub.c pub.m strategy pub.preambleBytes)).2 := by
  have hnew : ∃ strategy, RsStrategy.newOriginWithSeed pub.payload pub.config (deriveSeed r.seed o)
      = .ok strategy := by
    simp only [RsStrategy.newOriginWithSeed, pub.encoded]
    exact ⟨_, rfl⟩
  obtain ⟨strategy, hnew⟩ := hnew
  refine ⟨_, strategy, hnew, ?_⟩
  show (r.publish o pub.c pub.m pub.payload pub.config).2 = _
  simp only [publish, pub.encoded, hnew, he]
  rfl

/-- **A publish in a lossy scenario.**  Peers run on a simulated network that drops messages but holds none
back.  One of them publishes a message, and nobody else publishes under its key.  What the application of
another peer, which hosts the channel, is handed under the key is the message once, if the shards its engine
was stepped with are enough, and nothing otherwise, whatever the calls are and wherever they leave off: as
long as no `SessionOpen` is dropped, the sessions do not expire, the sink has room and no chunk collides
with a shard (`Calm`).  So a subscriber gets the message when the network is quiescent if the publish has
lost it no more shards than there is parity. -/
theorem publish_loss_tolerant (hsha : Sha256Len) (hrs : RsCorrect) (pub : Publication)
    (hprost : Crates.preambleDecode pub.preambleBytes = .ok pub.preamble) (peers : List PeerId)
    {plan : FaultPlan R} (hplan : plan.Undelayed) (simStart : Instant) (before after : List Op)
    (hbefore : ∀ op ∈ before, ¬ op.Publishes pub) (hafter : ∀ op ∈ after, ¬ op.Publishes pub)
    {o p : PeerId} (hp : p ≠ o) {origin relay : Engine RsStrategy (SimNetEndpoint R)}
    (horigin : ((new peers plan simStart).run before).engines[o]? = some origin)
    (hrelay : ((new peers plan simStart).run before).engines[p]? = some relay)
    (hhosted : pub.c ∈ relay.channels)
    (hcalm : ∀ l, l <+: after →
      ((((new peers plan simStart).run before).apply (.publish o pub.c pub.m pub.payload pub.config)).run l).Calm
        pub ((new peers plan simStart).run before).hub.wallNow
        ((new peers plan simStart).run before).hub.trace.length p) :
    let start := (new peers plan simStart).run before
    let published := start.apply (.publish o pub.c pub.m pub.payload pub.config)
    let final := published.run after
    let lost := SimState.droppedChunks o p (published.hub.trace.drop start.hub.trace.length)
    ((published.handed p after).filter fun d => d.channelId = pub.c ∧ d.messageId = pub.m)
      = (if pub.needed ≤ (pub.arrived (final.steppedWith p)).card
        then [⟨pub.c, pub.m, pub.payload⟩] else [])
    ∧ (p ∈ origin.subscribersOf pub.c → final.Quiescent →
      lost.toFinset.card ≤ asUsize pub.preamble.numParity →
      ((published.handed p after).filter fun d => d.channelId = pub.c ∧ d.messageId = pub.m)
        = [⟨pub.c, pub.m, pub.payload⟩]) := by
  intro start published final lost
  obtain ⟨hready, got, hunheard⟩ := (ready_new peers hplan simStart).run_unheard hprost
    (unheard_new pub peers plan simStart) before hbefore
  obtain ⟨seed, strategy, hstrategy, happly⟩ := apply_publish pub horigin
  -- the publish is a turn of the mesh
  have hvalid : (Input.publish pub.c pub.m strategy pub.preambleBytes).Valid := ⟨_, _, _, hstrategy⟩
  have hknown : start.Known (.publish pub.c pub.m strategy pub.preambleBytes) :=
    fun q _ => ⟨Bool.false_ne_true, fun c h => by cases h⟩
  obtain ⟨hready₁, haccepted⟩ := hready.perform pub horigin hvalid (by simp) hknown
  have hlater := hready.perform_later pub horigin
    (i := .publish pub.c pub.m strategy pub.preambleBytes) (by simp) p
  have hsame : start.mesh got = { start.mesh got with
      read := Function.update (start.mesh got).read o ((start.mesh got).read o
        + (Input.publish pub.c pub.m strategy pub.preambleBytes).reads) } := by
    have hreads : (Input.publish pub.c pub.m strategy pub.preambleBytes).reads = 0 := rfl
    rw [hreads, Nat.add_zero, Function.update_eq_self]
  obtain ⟨new, htrace, hturn⟩ := hready.turn pub horigin (by simp) hsame (by simp)
  rw [← happly] at hready₁ hlater htrace hturn
  have hlost : published.hub.trace.drop start.hub.trace.length = new := by
    rw [htrace, List.drop_left]
  obtain ⟨lostMsgs, hturn, hchunks⟩ := hturn (.inl (by
    rw [← hlost]
    exact (hcalm [] List.nil_prefix).opens))
  -- what comes after it is a run of the mesh
  obtain ⟨hfinal, hhosts, got', hgot, hmoves⟩ := hready₁.run_attended got after hafter hcalm
    hlater.trace.length_le hlater.wallNow
  have hengine : (start.mesh got).engines p = some (relay.onWire .idle) := by
    show start.engines[p]?.map (·.onWire .idle) = _
    rw [hrelay]
    rfl
  obtain ⟨hput, henough⟩ := Mesh.delivers hsha hrs hprost hstrategy hunheard hengine hhosted hturn hp hmoves
  have hp' : p ∈ final.engines :=
    (hhosts p).mpr ((hlater.hosted p).mpr ((BTreeMap.mem_iff_get _ _).mpr ⟨relay, hrelay⟩))
  have hstepped := hfinal.served.stepped p hp'
  have htake : ((final.mesh got').mail p).take ((final.mesh got').read p) = final.steppedWith p := by
    show (final.hub.post p).take (final.steppedWith p).length = _
    rw [SimState.post, ← hstepped, List.append_assoc, List.take_left]
  have hhanded : ((published.handed p after).filter fun d => d.channelId = pub.c ∧ d.messageId = pub.m)
      = ((final.mesh got').out p).filter fun d => d.channelId = pub.c ∧ d.messageId = pub.m := by
    have hnone : (got p).filter (fun d => d.channelId = pub.c ∧ d.messageId = pub.m) = [] := by
      rw [List.filter_eq_nil_iff]
      intro d hd
      simpa using hunheard.unput p d (List.mem_append_left _ hd)
    show _ = (got' p ++ final.sink p).filter _
    rw [hgot, List.filter_append, hnone, List.nil_append]
  rw [hhanded, hput, htake]
  refine ⟨rfl, fun hsub hquiet hcard => if_pos ?_⟩
  rw [← htake]
  refine henough haccepted hsub ?_ ?_
  · rw [hchunks, ← hlost]
    exact hcard
  · obtain ⟨hempty, -, hall⟩ := hquiet
    show (final.steppedWith p).length = (final.hub.post p).length
    rw [SimState.post, hall p hp', SimState.inTransit, hempty]
    simp

end Scenarios

section

attribute [local instance] oneShard SimState.noDraws

/-- The first shard of a message. -/
def firstChunk : NetSend → Bool
  | .chunk _ _ _ chunkId _ _ => chunkId = 0
  | _ => false

/-- Every first shard from 1 to 2 is lost. -/
def lossyPlan : FaultPlan Unit := (FaultPlan.new 0).addRule 1 2 (.dropIf ⟨fun _ msg => firstChunk msg, []⟩)

/-- Two peers that have introduced themselves, and will publish and receive a message. -/
def lossyStart : SimRunner Unit :=
  (new [1, 2] lossyPlan 0).run [.subscribeAll "c" OneShard.config, .connectFullMesh, .runToQuiescence 20]

def lossyPublished : SimRunner Unit :=
  lossyStart.apply (.publish 1 Network.onePublication.c Network.onePublication.m Network.onePublication.payload
    Network.onePublication.config)

/-- What can be read off a simulation of a message of one shard. -/
def leftCalm (r : SimRunner Unit) : Bool :=
  r.hub.trace.all (fun entry =>
    match entry.kind with
    | .send _ _ .sessionOpen (.dropped _) => false
    | _ => true)
  && decide (r.hub.wallNow ≤ 0 + ({} : EngineConfig).activeSessionTtl)
  && decide ((r.sink 2).length < deliverySinkCapacity)
  && (r.steppedWith 2).all (fun ev =>
    match ev with
    | .chunk _ _ _ _ data => data = [1]
    | _ => true)

/-- What a test of the last state says of every time. -/
theorem calm_of_leftCalm {r : SimRunner Unit} {t₀ : Instant} (hzero : t₀ = 0) (h : leftCalm r = true) (n : Nat) :
    r.Calm Network.onePublication t₀ n 2 := by
  subst hzero
  simp only [leftCalm, Bool.and_eq_true, decide_eq_true_eq] at h
  obtain ⟨⟨⟨hopens, htime⟩, hroom⟩, hdata⟩ := h
  refine ⟨fun entry hentry src dst reason hkind => ?_, htime, hroom, fun peer idx data hmem b hb _ => ?_⟩
  · have hkept := List.all_eq_true.mp hopens entry (List.mem_of_mem_drop hentry)
    rw [hkind] at hkept
    cases hkept
  · have hone : data = [1] := of_decide_eq_true (List.all_eq_true.mp hdata _ hmem)
    have hshards : b ∈ [[1], [1]] := hb
    simp only [List.mem_cons, List.not_mem_nil, or_false, or_self] at hshards
    rw [hone, hshards]

/-- Two peers, of which the first publishes a message of one shard with one for parity; one of them is
lost. -/
theorem publish_loss_tolerant_first :
    SimState.droppedChunks 1 2 (lossyPublished.hub.trace.drop lossyStart.hub.trace.length) = [0]
    ∧ ((lossyPublished.handed 2 [.runToQuiescence 20]).filter fun d => d.channelId = "c" ∧ d.messageId = "m")
      = [⟨"c", "m", [1]⟩] := by
  have hlost : SimState.droppedChunks 1 2 (lossyPublished.hub.trace.drop lossyStart.hub.trace.length) = [0] := by
    decide +kernel
  obtain ⟨origin, horigin⟩ := Option.isSome_iff_exists.mp
    (show (lossyStart.engines[(1 : PeerId)]?).isSome by decide +kernel)
  obtain ⟨relay, hrelay⟩ := Option.isSome_iff_exists.mp
    (show (lossyStart.engines[(2 : PeerId)]?).isSome by decide +kernel)
  have hhosted : "c" ∈ relay.channels := by
    have hsome : (lossyStart.engines[(2 : PeerId)]?).any ("c" ∈ ·.channels) = true := by decide +kernel
    rw [hrelay] at hsome
    exact of_decide_eq_true hsome
  have hsubscribed : 2 ∈ origin.subscribersOf "c" := by
    have hsome : (lossyStart.engines[(1 : PeerId)]?).any (2 ∈ ·.subscribersOf "c") = true := by decide +kernel
    rw [horigin] at hsome
    exact of_decide_eq_true hsome
  -- no other operation of the witness publishes this message
  have hsilent : ∀ op : Op, op = .subscribeAll "c" OneShard.config ∨ op = .connectFullMesh
      ∨ op = .runToQuiescence 20 → ¬ op.Publishes Network.onePublication := by
    rintro op (rfl | rfl | rfl) ⟨_, _, _, h⟩ <;> cases h
  -- the run of the witness comes to rest with nothing unread
  have hquiet : (lossyPublished.run [.runToQuiescence 20]).Quiescent := by
    have hread : ((lossyPublished.run [.runToQuiescence 20]).engines.keys.all fun p =>
        ((lossyPublished.run [.runToQuiescence 20]).unread p).isEmpty) = true := by
      decide +kernel
    have hempty : (lossyPublished.run [.runToQuiescence 20]).hub.heap.entries.isEmpty := by decide +kernel
    have hstart : lossyStart.Served := ((new_served [1, 2] lossyPlan 0).1.run
      [.subscribeAll "c" OneShard.config, .connectFullMesh, .runToQuiescence 20]).1
    have hserved := ((hstart.apply (.publish 1 Network.onePublication.c Network.onePublication.m
      Network.onePublication.payload Network.onePublication.config)).1.run [.runToQuiescence 20]).1
    have hall : (lossyPublished.run [.runToQuiescence 20]).AllRead := fun p hp =>
      List.isEmpty_iff.mp (List.all_eq_true.mp hread p (Std.ExtTreeMap.mem_keys.mpr hp))
    refine ⟨List.isEmpty_iff.mp hempty, hall, fun p hp => ?_⟩
    have hstepped := hserved.stepped p hp
    rw [← lossyPublished, hall p hp, List.append_nil] at hstepped
    exact hstepped
  have hundelayed : lossyPlan.Undelayed := by
    rintro rule hrule
    obtain rfl := List.mem_singleton.mp hrule
    trivial
  refine ⟨hlost, ?_⟩
  obtain ⟨-, hdelivered⟩ := publish_loss_tolerant OneShard.sha256Len OneShard.rsCorrect Network.onePublication rfl
    [1, 2] hundelayed 0 [.subscribeAll "c" OneShard.config, .connectFullMesh, .runToQuiescence 20]
    [.runToQuiescence 20] (fun op hop => hsilent op (by simpa using hop))
    (fun op hop => hsilent op (.inr (.inr (by simpa using hop)))) (o := 1) (p := 2) (by decide) horigin hrelay
    hhosted fun l hl => calm_of_leftCalm (by decide +kernel) (by
      rcases List.prefix_cons_iff.mp hl with rfl | ⟨l', rfl, hl'⟩
      · decide +kernel
      · rw [List.prefix_nil.mp hl']
        decide +kernel) _
  rw [← lossyStart, ← lossyPublished, hlost] at hdelivered
  exact hdelivered hsubscribed hquiet (by decide +kernel)

end

end SimRunner

end Ethp2p
