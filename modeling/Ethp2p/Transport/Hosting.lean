/-
# Ethp2p.Transport.Hosting — an engine on the QUIC transport.

The engine is proved correct over a transport about which nothing is assumed, and some of its results need a
transport that reports each accepted chunk at most once, under its own peer and token (`Reports`).  Here the engine
runs on a node: it takes the events the node has put into the inbound queue, in turn, and while it processes an input
the tasks of the node take steps as they like, the engine's own sends among them.

In every such run the transport does report so (`hosted_reports`).  Which dispatch an outcome reports is found by
counting: the outcomes of a peer come in the order in which the chunks were accepted for it (`View.Settles`).
-/
import Ethp2p.Transport.Reports
import Ethp2p.Resolutions

namespace Ethp2p

/-! ## Places in the log -/

/-- The chunks that were accepted for a peer, each with its place in the log. -/
def ticketsAt (peer : PeerId) (log : List Sent) : List (Ticket × Nat) :=
  log.zipIdx.filterMap fun x => ((x.1.acceptedFor peer).bind NetSend.ticket).map (·, x.2)

/-- The tickets of a peer are those of the chunks that were accepted for it, in order. -/
theorem ticketsAt_fst (peer : PeerId) (log : List Sent) :
    (ticketsAt peer log).map Prod.fst = (log.filterMap (Sent.acceptedFor peer)).filterMap NetSend.ticket := by
  have hlog : log.filterMap (fun sent => (sent.acceptedFor peer).bind NetSend.ticket)
      = log.zipIdx.filterMap fun x => (x.1.acceptedFor peer).bind NetSend.ticket := by
    conv_lhs => rw [← List.zipIdx_map_fst 0 log]
    rw [List.filterMap_map]
    rfl
  rw [List.filterMap_filterMap, hlog, ticketsAt, List.map_filterMap]
  simp only [Option.map_map]
  congr 1
  funext x
  exact Option.map_id'

/-- A longer log has more tickets, behind the ones it had. -/
theorem ticketsAt_prefix (peer : PeerId) {log log' : List Sent} (h : log <+: log') :
    ticketsAt peer log <+: ticketsAt peer log' := by
  obtain ⟨rest, rfl⟩ := h
  rw [ticketsAt, ticketsAt, List.zipIdx_append, List.filterMap_append]
  exact List.prefix_append _ _

/-- Each place is that of the chunk. -/
theorem ticketsAt_mem {peer : PeerId} {log : List Sent} {ticket : Ticket} {i : Nat}
    (h : (ticket, i) ∈ ticketsAt peer log) :
    ∃ sent, log[i]? = some sent ∧ (sent.acceptedFor peer).bind NetSend.ticket = some ticket := by
  obtain ⟨⟨sent, i'⟩, hsent, hticket⟩ := List.mem_filterMap.mp h
  obtain ⟨ticket', hticket', heq⟩ := Option.map_eq_some_iff.mp hticket
  cases heq
  exact ⟨sent, List.mk_mem_zipIdx_iff_getElem?.mp hsent, hticket'⟩

/-- Each ticket is of another entry of the log. -/
theorem ticketsAt_nodup (peer : PeerId) (log : List Sent) : ((ticketsAt peer log).map Prod.snd).Nodup := by
  have hplaces : (log.zipIdx.map Prod.snd).Nodup := by
    rw [List.zipIdx_map_snd]
    exact List.nodup_range'
  rw [List.Nodup, List.pairwise_map] at hplaces ⊢
  rw [ticketsAt, List.pairwise_filterMap]
  refine hplaces.imp fun {x y} hne t ht t' ht' => ?_
  obtain ⟨k, -, rfl⟩ := Option.map_eq_some_iff.mp ht
  obtain ⟨k', -, rfl⟩ := Option.map_eq_some_iff.mp ht'
  exact hne

/-- A message is accepted for one peer only. -/
theorem Sent.acceptedFor_inj {sent : Sent} {peer peer' : PeerId} (h : sent.acceptedFor peer ≠ none)
    (h' : sent.acceptedFor peer' ≠ none) : peer = peer' := by
  unfold acceptedFor at h h'
  split at h
  case isFalse => exact absurd rfl h
  case isTrue hok =>
    split at h'
    case isFalse => exact absurd rfl h'
    case isTrue hok' =>
      simp only [Bool.and_eq_true, decide_eq_true_eq] at hok hok'
      exact Option.some.inj (hok.2.symm.trans hok'.2)

/-- A ticket of an accepted chunk is that of a dispatch. -/
theorem Sent.dispatch?_of_ticket {sent : Sent} {peer : PeerId} {c : ChannelId} {m : MessageId}
    {token : DispatchHandle} (h : (sent.acceptedFor peer).bind NetSend.ticket = some (c, m, token)) :
    ∃ d ∈ sent.dispatch?, d.1 = (c, m) ∧ d.2.1 = token ∧ d.2.2.1 = peer := by
  obtain ⟨msg, hmsg, hticket⟩ := Option.bind_eq_some_iff.mp h
  obtain ⟨msg', answer⟩ := sent
  unfold acceptedFor at hmsg
  split at hmsg
  case isFalse => cases hmsg
  case isTrue hok =>
    cases hmsg
    simp only [Bool.and_eq_true, decide_eq_true_eq] at hok
    cases msg' with
    | chunk peer' c' m' idx data token' =>
      cases hticket
      cases answer with
      | error => cases hok.1
      | ok => exact ⟨_, rfl, rfl, rfl, Option.some.inj hok.2⟩
    | handshake | subscribe | unsubscribe | sessionOpen | routingUpdate | sessionReconstructed => cases hticket

/-! ## Nodes -/

/-- The event an input brings. -/
def Input.event? : Input RsStrategy → Option NetEvent
  | .event ev => some ev
  | _ => none

deriving instance DecidableEq for Sent

/-- An engine and the transport under it, with the number of events it has taken. -/
structure Node where
  engine : Engine RsStrategy Wire
  net : QuicNet := {}
  taken : Nat := 0

section Streams

variable [Message Bcast] [Message Sess] [Message Header] [Message ChunkIdent] [Crates]

namespace Node

/-- A turn: the tasks that take steps while the engine waits, the input it then takes, and the tasks that take steps
while it processes it. -/
structure Turn where
  before : List Task := []
  input : Input RsStrategy
  during : List Task := []

/-- Take a turn.  An event is the first one that the engine has not taken yet; and the sends that are answered are
those that the engine makes, with the answers it gets. -/
def turn (node : Node) (t : Turn) : Option Node :=
  match node.net.tasks t.before with
  | some (mid, []) =>
    match mid.tasks t.during with
    | some (net, calls) =>
      let engine := (node.engine.step t.input).2
      if mid.sending.isNone && (t.input.event?.all fun ev => mid.inbound[node.taken]? = some ev)
          && net.sending.isNone && engine.net.log = node.engine.net.log ++ calls then
        some { engine, net, taken := node.taken + t.input.event?.toList.length }
      else
        none
    | none => none
  | _ => none

/-- Take turns. -/
def turns (node : Node) : List Turn → Option Node
  | [] => some node
  | t :: ts =>
    match node.turn t with
    | none => none
    | some node => node.turns ts

/-- What a turn with an input does. -/
inductive Took (node : Node) (i : Input RsStrategy) : Node → Prop
  | took {before during : List Task} {mid net : QuicNet} {calls : List Sent}
      (hbefore : node.net.tasks before = some (mid, []))
      (hnext : ∀ ev, i.event? = some ev → mid.inbound[node.taken]? = some ev)
      (hduring : mid.tasks during = some (net, calls))
      (hcalls : (node.engine.step i).2.net.log = node.engine.net.log ++ calls) :
      Took node i { engine := (node.engine.step i).2, net, taken := node.taken + i.event?.toList.length }

/-- A turn of the node is a step of its engine, answered by the transport. -/
theorem turn_took {node node' : Node} {t : Turn} (h : node.turn t = some node') : Took node t.input node' := by
  unfold turn at h
  split at h
  case h_1 mid hbefore =>
    split at h
    case h_1 net calls hduring =>
      dsimp only at h
      split at h
      case isTrue hok =>
        cases h
        simp only [Bool.and_eq_true, Option.all_eq_true, decide_eq_true_eq] at hok
        exact .took hbefore hok.1.1.2 hduring hok.2
      case isFalse => cases h
    case h_2 => cases h
  case h_2 => cases h

end Node

/-! ## What the transport keeps -/

namespace QuicNet

variable {net net' mid : QuicNet} {ts ts' : List Task} {log log' : List Sent} {sent : Option Sent}

omit [Crates] in
/-- Tasks in a row. -/
theorem tasks_append (h : net.tasks ts = some (mid, log)) (h' : mid.tasks ts' = some (net', log')) :
    net.tasks (ts ++ ts') = some (net', log ++ log') := by
  induction ts generalizing net log with
  | nil =>
    cases h
    exact h'
  | cons t ts ih =>
    cases htask : net.task t with
    | none => simp [tasks, htask] at h
    | some moved =>
      obtain ⟨next, sent⟩ := moved
      cases htasks : next.tasks ts with
      | none => simp [tasks, htask, htasks] at h
      | some rest =>
        obtain ⟨last, rest⟩ := rest
        simp only [tasks, htask, htasks, Option.some.injEq, Prod.mk.injEq] at h
        obtain ⟨rfl, rfl⟩ := h
        simp only [List.cons_append, tasks, htask, ih htasks, List.append_assoc]

omit [Crates] in
/-- Tasks take neither connections nor events away. -/
theorem tasks_grow (h : net.tasks ts = some (net', log)) :
    net.conns.length ≤ net'.conns.length ∧ net.inbound <+: net'.inbound := by
  have hstart : net.conns.length ≤ net.conns.length ∧ net.inbound <+: net.inbound :=
    ⟨Nat.le_refl _, List.prefix_refl _⟩
  refine tasks_induct (P := fun net' _ => net.conns.length ≤ net'.conns.length ∧ net.inbound <+: net'.inbound)
    (fun net₁ net₂ log₁ sent hold hstep => ⟨hold.1.trans hstep.length_le, hold.2.trans ?_⟩) [] h hstart
  cases hstep with
  | moved => exact List.prefix_append _ _
  | connected | registered | exited | commanded | unrouted | called | stopped | pushedBack | enqueued | lost =>
    exact List.prefix_refl _

end QuicNet

/-! ## Runs -/

namespace Node

/-- The number of outcomes of a peer among the first `t` inputs. -/
def outcomes (inputs : List (Input RsStrategy)) (t : Nat) (peer : PeerId) : Nat :=
  ((((inputs.take t).filterMap Input.event?).filter fun ev => ev.sender = peer).filterMap NetEvent.ticket).length

/-- The run of a node: its engine has taken the inputs, its transport has answered what the engine has sent, the
events among the inputs are the first ones that came in, and the outcome of a chunk has the ticket of the chunk that
is as many chunks into those accepted for the peer as there were outcomes of that peer before. -/
structure Runs (e : Engine RsStrategy Wire) (inputs : List (Input RsStrategy)) (node : Node) : Prop where
  engine : node.engine = e.run inputs
  net : ∃ ts, ({} : QuicNet).tasks ts = some (node.net, node.engine.net.log)
  events : inputs.filterMap Input.event? = node.net.inbound.take node.taken
  taken : node.taken ≤ node.net.inbound.length
  log : ∀ t ≤ inputs.length, (e.run (inputs.take t)).net.log <+: node.engine.net.log
  placed : ∀ t (ht : t < inputs.length) (ev : NetEvent) (ticket : Ticket), inputs[t].event? = some ev →
    ev.ticket = some ticket →
    ∃ i, (ticketsAt ev.sender (e.run (inputs.take t)).net.log)[outcomes inputs t ev.sender]? = some (ticket, i)

variable {e : Engine RsStrategy Wire} {inputs : List (Input RsStrategy)} {i : Input RsStrategy} {node node' : Node}

omit [Message Bcast] [Message Sess] [Message Header] [Message ChunkIdent] [Crates] in
theorem outcomes_append {t : Nat} (ht : t ≤ inputs.length) (more : List (Input RsStrategy)) (peer : PeerId) :
    outcomes (inputs ++ more) t peer = outcomes inputs t peer := by
  rw [outcomes, outcomes, List.take_append_of_le_length ht]

/-- Before the first turn the engine has made no run. -/
theorem start_runs (h : e.net.log = []) : Runs e [] { engine := e } where
  engine := rfl
  net := ⟨[], by rw [h]; rfl⟩
  events := rfl
  taken := Nat.zero_le _
  log t ht := by
    rw [List.take_nil]
    exact List.prefix_refl _
  placed t ht := absurd ht (Nat.not_lt_zero t)

/-- The next outcome is that of the next chunk which was accepted for its peer. -/
theorem Runs.placed_next (h : Runs e inputs node) {before : List Task} {mid : QuicNet}
    (hbefore : node.net.tasks before = some (mid, [])) (hids : mid.conns.length ≤ 2 ^ 64) {ev : NetEvent}
    {ticket : Ticket} (hnext : mid.inbound[node.taken]? = some ev) (hticket : ev.ticket = some ticket) :
    ∃ i, (ticketsAt ev.sender node.engine.net.log)[outcomes inputs inputs.length ev.sender]?
      = some (ticket, i) := by
  obtain ⟨ts, hts⟩ := h.net
  have hviewed := QuicNet.tasks_reports (QuicNet.tasks_append hts hbefore)
  rw [List.append_nil] at hviewed
  obtain ⟨j, conn, hconn, hpeer⟩ := hviewed.named.events ev (List.mem_of_getElem? hnext)
  have hsettles := (hviewed.views hids j conn hconn).2.outcomes
  simp only [QuicNet.view, hpeer] at hsettles
  -- the events so far, and this one, are the first that came in
  obtain ⟨later, hlater⟩ := (QuicNet.tasks_grow hbefore).2
  have htaken : mid.inbound.take node.taken = inputs.filterMap Input.event? := by
    rw [h.events, ← hlater, List.take_append_of_le_length h.taken]
  obtain ⟨hlt, hget⟩ := List.getElem?_eq_some_iff.mp hnext
  have hfirst : mid.inbound = inputs.filterMap Input.event? ++ ev :: mid.inbound.drop (node.taken + 1) := by
    rw [← htaken, ← hget, ← List.drop_eq_getElem_cons hlt, List.take_append_drop]
  have hget' : ((ticketsAt ev.sender node.engine.net.log).map Prod.fst)[outcomes inputs inputs.length ev.sender]?
      = some ticket := by
    rw [ticketsAt_fst, hsettles, hfirst, List.filter_append, List.filterMap_append, List.append_assoc, outcomes,
      List.take_length, List.getElem?_append_right (Nat.le_refl _), Nat.sub_self]
    simp [hticket]
  rw [List.getElem?_map] at hget'
  obtain ⟨⟨ticket', place⟩, hplace, rfl⟩ := Option.map_eq_some_iff.mp hget'
  exact ⟨place, hplace⟩

/-- **A turn** goes on with the run. -/
theorem Runs.took (h : Runs e inputs node) (hturn : Took node i node') (hids : node'.net.conns.length ≤ 2 ^ 64) :
    Runs e (inputs ++ [i]) node' := by
  obtain @⟨before, during, mid, net, calls, hbefore, hnext, hduring, hcalls⟩ := hturn
  -- inbound events and submissions are only ever added
  have hgrown := QuicNet.tasks_grow hduring
  have hinbound : node.net.inbound <+: net.inbound := (QuicNet.tasks_grow hbefore).2.trans hgrown.2
  have hlog : node.engine.net.log <+: (node.engine.step i).2.net.log := hcalls ▸ List.prefix_append _ _
  have hrun : (node.engine.step i).2 = e.run (inputs ++ [i]) := by rw [Engine.run_concat, h.engine]
  refine ⟨hrun, ?_, ?_, ?_, fun t ht => ?_, fun t ht ev ticket hev hticket => ?_⟩
  · obtain ⟨ts, hts⟩ := h.net
    refine ⟨ts ++ (before ++ during), ?_⟩
    rw [hcalls]
    exact QuicNet.tasks_append hts (QuicNet.tasks_append hbefore hduring)
  · have hold : net.inbound.take node.taken = node.net.inbound.take node.taken := by
      obtain ⟨later, hlater⟩ := hinbound
      rw [← hlater, List.take_append_of_le_length h.taken]
    rw [List.filterMap_append, h.events, ← hold]
    cases hev : i.event? with
    | none => simp [hev]
    | some ev =>
      have hnow : net.inbound[node.taken]? = some ev := by
        obtain ⟨later, hlater⟩ := hgrown.2
        rw [← hlater, List.getElem?_append_left (List.getElem?_eq_some_iff.mp (hnext ev hev)).1, hnext ev hev]
      simp [hev, List.take_add_one, hnow]
  · cases hev : i.event? with
    | none => exact h.taken.trans hinbound.length_le
    | some ev =>
      have hlt := (List.getElem?_eq_some_iff.mp (hnext ev hev)).1
      exact (Nat.succ_le_of_lt hlt).trans hgrown.2.length_le
  · rcases Nat.lt_or_ge inputs.length t with hlt | hle
    · rw [List.take_of_length_le (by rw [List.length_append]; exact hlt), ← hrun]
    · rw [List.take_append_of_le_length hle]
      exact (h.log t hle).trans hlog
  · rw [List.length_append, List.length_singleton] at ht
    rcases Nat.lt_or_eq_of_le (Nat.le_of_lt_succ ht) with hlt | rfl
    · rw [List.getElem_append_left hlt] at hev
      rw [List.take_append_of_le_length (Nat.le_of_lt hlt), outcomes_append (Nat.le_of_lt hlt)]
      exact h.placed t hlt ev ticket hev hticket
    · rw [List.getElem_concat_length rfl] at hev
      rw [List.take_append_of_le_length (Nat.le_refl _), List.take_length, outcomes_append (Nat.le_refl _), ← h.engine]
      exact h.placed_next hbefore (hgrown.1.trans hids) (hnext ev hev) hticket

theorem Took.length_le (h : Took node i node') : node.net.conns.length ≤ node'.net.conns.length := by
  obtain @⟨before, during, mid, net, calls, hbefore, -, hduring, -⟩ := h
  exact (QuicNet.tasks_grow hbefore).1.trans (QuicNet.tasks_grow hduring).1

/-- Turns take no connections away. -/
theorem turns_length_le {ts : List Turn} (h : node.turns ts = some node') :
    node.net.conns.length ≤ node'.net.conns.length := by
  induction ts generalizing node with
  | nil =>
    cases h
    exact Nat.le_refl _
  | cons t ts ih =>
    rw [turns] at h
    split at h
    · cases h
    case h_2 next hturn => exact (turn_took hturn).length_le.trans (ih h)

/-- Whatever turns a node takes, its run goes on. -/
theorem Runs.turns {ts : List Turn} (h : Runs e inputs node) (hturns : node.turns ts = some node')
    (hids : node'.net.conns.length ≤ 2 ^ 64) : Runs e (inputs ++ ts.map Turn.input) node' := by
  induction ts generalizing node inputs with
  | nil =>
    cases hturns
    rwa [List.map_nil, List.append_nil]
  | cons t ts ih =>
    rw [Node.turns] at hturns
    split at hturns
    · cases hturns
    case h_2 next hturn =>
      have hnext := h.took (turn_took hturn) ((turns_length_le hturns).trans hids)
      rw [List.map_cons, ← List.singleton_append, ← List.append_assoc]
      exact ih hnext hturns

/-! ## Reports -/

omit [Message Bcast] [Message Sess] [Message Header] [Message ChunkIdent] [Crates] in
/-- There is one more outcome after an outcome. -/
theorem outcomes_lt {t t' : Nat} (ht : t < inputs.length) (hlt : t < t') {ev : NetEvent} {ticket : Ticket}
    (hev : inputs[t].event? = some ev) (hticket : ev.ticket = some ticket) :
    outcomes inputs t ev.sender < outcomes inputs t' ev.sender := by
  obtain ⟨later, hlater⟩ : inputs.take (t + 1) <+: inputs.take t' := List.take_prefix_take_left hlt
  have hone : (([inputs[t]].filterMap Input.event?).filter fun ev' => ev'.sender = ev.sender).filterMap
      NetEvent.ticket = [ticket] := by
    simp [hev, hticket]
  rw [outcomes, outcomes, ← hlater, List.take_succ_eq_append_getElem ht]
  simp only [List.filterMap_append, List.filter_append, List.length_append, hone, List.length_singleton]
  omega

/-- The place in the log that input `t` reports, if it is an outcome. -/
def place (inputs : List (Input RsStrategy)) (log : List Sent) (t : Nat) : Nat :=
  match inputs[t]?.bind Input.event? with
  | some ev => (((ticketsAt ev.sender log)[outcomes inputs t ev.sender]?).map Prod.snd).getD 0
  | none => 0

/-- An outcome reports the chunk at its place. -/
theorem Runs.reported (h : Runs e inputs node) {t : Nat} (ht : t < inputs.length) {ev : NetEvent} {ticket : Ticket}
    (hev : inputs[t].event? = some ev) (hticket : ev.ticket = some ticket) :
    (ticketsAt ev.sender (e.run (inputs.take t)).net.log)[outcomes inputs t ev.sender]?
        = some (ticket, place inputs node.engine.net.log t)
    ∧ (ticketsAt ev.sender node.engine.net.log)[outcomes inputs t ev.sender]?
        = some (ticket, place inputs node.engine.net.log t) := by
  obtain ⟨n, hn⟩ := h.placed t ht ev ticket hev hticket
  have hfinal : (ticketsAt ev.sender node.engine.net.log)[outcomes inputs t ev.sender]? = some (ticket, n) := by
    obtain ⟨later, hlater⟩ := ticketsAt_prefix ev.sender (h.log t (Nat.le_of_lt ht))
    rw [← hlater, List.getElem?_append_left (List.getElem?_eq_some_iff.mp hn).1, hn]
  have hplace : place inputs node.engine.net.log t = n := by
    rw [Node.place, List.getElem?_eq_getElem ht, Option.bind_some, hev]
    simp only [hfinal, Option.map_some, Option.getD_some]
  rw [hplace]
  exact ⟨hn, hfinal⟩

end Node

omit [Message Bcast] [Message Sess] [Message Header] [Message ChunkIdent] [Crates] in
theorem Engine.reportsAt_of {e : Engine RsStrategy Wire} {j : Nat} {i : Input RsStrategy}
    (h : ∀ peer c m token ok, i = .event (.chunkSendResult peer c m token ok) →
      ∃ d ∈ e.net.log[j]?.bind Sent.dispatch?, d.1 = (c, m) ∧ d.2.1 = token ∧ d.2.2.1 = peer) :
    e.ReportsAt j i := by
  unfold ReportsAt
  split
  case h_1 peer c m token ok => exact h peer c m token ok rfl
  case h_2 => trivial

omit [Message Bcast] [Message Sess] [Message Header] [Message ChunkIdent] [Crates] in
theorem Input.eq_of_isResult {i : Input RsStrategy} (h : i.isResult = true) :
    ∃ peer c m token ok, i = .event (.chunkSendResult peer c m token ok) := by
  unfold isResult at h
  split at h
  · exact ⟨_, _, _, _, _, rfl⟩
  · cases h

omit [Message Bcast] [Message Sess] [Message Header] [Message ChunkIdent] [Crates] in
theorem Input.event?_of_isResult {i : Input RsStrategy} (h : i.isResult = true) :
    ∃ ev ticket, i.event? = some ev ∧ ev.ticket = some ticket := by
  obtain ⟨peer, c, m, token, ok, rfl⟩ := eq_of_isResult h
  exact ⟨_, _, rfl, rfl⟩

/-- The outcomes that were taken are of the chunks at their places, and of no two the same. -/
theorem Node.Runs.reports {e : Engine RsStrategy Wire} {inputs : List (Input RsStrategy)} {node : Node}
    (h : Node.Runs e inputs node) : e.Reports inputs (Node.place inputs node.engine.net.log) := by
  refine ⟨fun t ht => Engine.reportsAt_of ?_, fun t ht t' ht' hres hres' hsame => ?_⟩
  · intro peer c m token ok hi
    have hev : inputs[t].event? = some (.chunkSendResult peer c m token ok) := by rw [hi]; rfl
    obtain ⟨hplace, -⟩ := h.reported ht hev rfl
    obtain ⟨sent, hsent, hticket⟩ := ticketsAt_mem (List.mem_of_getElem? hplace)
    rw [hsent]
    exact Sent.dispatch?_of_ticket hticket
  · obtain ⟨ev, ticket, hev, hticket⟩ := Input.event?_of_isResult hres
    obtain ⟨ev', ticket', hev', hticket'⟩ := Input.event?_of_isResult hres'
    have hplace := (h.reported ht hev hticket).2
    have hplace' := (h.reported ht' hev' hticket').2
    rw [← hsame] at hplace'
    -- the same message is for the same peer
    have hpeer : ev.sender = ev'.sender := by
      obtain ⟨sent, hsent, hfor⟩ := ticketsAt_mem (List.mem_of_getElem? hplace)
      obtain ⟨sent', hsent', hfor'⟩ := ticketsAt_mem (List.mem_of_getElem? hplace')
      have haccepted : sent.acceptedFor ev.sender ≠ none := fun hnone => by simp [hnone] at hfor
      have haccepted' : sent'.acceptedFor ev'.sender ≠ none := fun hnone => by simp [hnone] at hfor'
      obtain rfl := Option.some.inj (hsent.symm.trans hsent')
      exact Sent.acceptedFor_inj haccepted haccepted'
    -- and the outcomes are in the order of the messages
    have hcount : Node.outcomes inputs t ev.sender = Node.outcomes inputs t' ev.sender := by
      rw [← hpeer] at hplace'
      have hnodup := ticketsAt_nodup ev.sender node.engine.net.log
      refine (List.getElem?_inj ?_ hnodup).mp ?_
      · rw [List.length_map]
        exact (List.getElem?_eq_some_iff.mp hplace).1
      · rw [List.getElem?_map, List.getElem?_map, hplace, hplace']
        rfl
    rcases Nat.lt_trichotomy t t' with hlt | heq | hlt
    · exact absurd hcount (Nat.ne_of_lt (Node.outcomes_lt ht hlt hev hticket))
    · exact heq
    · have hmore := Node.outcomes_lt ht' hlt hev' hticket'
      rw [← hpeer] at hmore
      exact absurd hcount (Nat.ne_of_gt hmore)

/-- **The QUIC transport reports as the engine expects**: in every run of an engine on a node, each outcome that the
engine takes is of a chunk it sent before, with its peer and its token, and no chunk has two. -/
theorem Engine.hosted_reports {e : Engine RsStrategy Wire} {ts : List Node.Turn} {node : Node}
    (h : ({ engine := e } : Node).turns ts = some node) (hstart : e.net.log = [])
    (hids : node.net.conns.length ≤ 2 ^ 64) : ∃ src, e.Reports (ts.map Node.Turn.input) src := by
  have hruns := (Node.start_runs hstart).turns h hids
  rw [List.nil_append] at hruns
  exact ⟨_, hruns.reports⟩

end Streams

section OneShard

attribute [local instance] oneShard Proto3.bcast Proto3.sess Proto3.header Proto3.ident

/-- The engine's calls of `send`, one after the other. -/
def QuicNet.sends (msgs : List NetSend) : List Task := msgs.flatMap fun msg => [.send msg, .enqueue]

/-- A peer connects and subscribes, and a message is published to it; the stream of the session's open is lost after
two bytes. -/
def publishOverQuic : List Node.Turn :=
  [{ input := .subscribe "c" (rsRelayFactory {} fun _ => 7) },
    { before := [.connect none, .register 0, .announce 0], input := .event (.peerConnected 1),
      during := QuicNet.sends [.handshake 1 1 ["c"] "peer-0"] },
    { before := [.accept 0 0,
        .arrive 0 0 (openStream [] .bcast ++ frame (Bcast.mk (some (.channelSubscribe "c")))), .read 0 0],
      input := .event (.subscribe 1 "c") },
    { input := .publish "c" "m" OneShard.origin (OneShard.preambleBytes OneShard.preamble),
      during := .recv 0 :: QuicNet.sends [.sessionOpen 1 "c" "m" (OneShard.preambleBytes OneShard.preamble) [],
        .routingUpdate 1 "c" "m" [3], .chunk 1 "c" "m" 0 [1] 0, .chunk 1 "c" "m" 1 [1] 1] },
    { before := [.write 0 .done, .recv 0, .write 0 (.cut 2), .recv 0, .write 0 .done, .recv 0, .write 0 .done],
      input := .event (.chunkSendResult 1 "c" "m" 0 true) }]

/-- A publish over QUIC whose chunk is written and reported. -/
theorem Engine.hosted_reports_published :
    ∃ node, ({ engine := nodeTicking second } : Node).turns publishOverQuic = some node ∧ node.taken = 3
      ∧ ∃ src, (nodeTicking second).Reports (publishOverQuic.map Node.Turn.input) src := by
  have hrun : (({ engine := nodeTicking second } : Node).turns publishOverQuic).any
      (fun node => node.taken = 3 && node.net.conns.length = 1) = true := by
    decide +kernel
  obtain ⟨node, hnode, hok⟩ := (Option.any_eq_true _ _).mp hrun
  simp only [Bool.and_eq_true, decide_eq_true_eq] at hok
  exact ⟨node, hnode, hok.1, hosted_reports hnode rfl (by rw [hok.2]; decide)⟩

end OneShard

end Ethp2p
