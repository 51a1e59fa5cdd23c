/-
# Ethp2p.Transport.Settlement — no outcome is lost between an engine and the QUIC transport.

A chunk that was accepted is pending in the engine until its outcome comes in.  Over a transport that reports as the
engine expects, whatever is pending was accepted in a message whose outcome the engine has not taken (`run_owed`):
taking an outcome takes the pending entry of its ticket away, and a new entry comes with a new message.

On a node such a message still waits at the connection of its peer, or its outcome is among the events that the
engine has not taken yet (`hosted_owed`).  So an engine whose node has nothing left to write and nothing left to
report has nothing pending.
-/
import Ethp2p.Transport.Hosting

namespace Ethp2p

/-! ## What is pending was accepted -/

/-- Whatever is pending was accepted in a message that is not among those whose outcome was taken. -/
def Ledger.Owed (taken : Nat → Prop) (k : SessionKey) (L : Ledger) : Prop :=
  ∀ token p, L.pending token = some p →
    ∃ j idx, L.log[j]?.bind Sent.dispatch? = some (k, token, p, idx) ∧ ¬ taken j

theorem lt_of_dispatch {log : List Sent} {j : Nat} {d : Dispatch} (h : log[j]?.bind Sent.dispatch? = some d) :
    j < log.length := by
  obtain ⟨sent, hsent, -⟩ := Option.bind_eq_some_iff.mp h
  exact (List.getElem?_eq_some_iff.mp hsent).1

section Ledgers

variable [Crates] {A : Premises} {i : Input RsStrategy} {k : SessionKey} {L L' : Ledger} {taken : Nat → Prop}

/-- What becomes pending was accepted just now. -/
theorem LedgerStep.pending_cases (h : LedgerStep A i k L L') {token : DispatchHandle} {p : PeerId}
    (hp : L'.pending token = some p) :
    L.pending token = some p
    ∨ ∃ idx data, L'.log = L.log ++ [⟨.chunk p k.1 k.2 idx data token, .ok ()⟩] := by
  cases h with
  | @chunkAccepted s d rest hs hd hopen hbatch =>
    -- the new entry, or one from before
    replace hp : Function.update L.pending d.handle (some d.peer) token = some p := hp
    by_cases htoken : token = d.handle
    · subst htoken
      rw [Function.update_self] at hp
      obtain rfl := Option.some.inj hp
      exact .inr ⟨_, _, rfl⟩
    · rw [Function.update_of_ne htoken] at hp
      exact .inl hp
  | @resolved peer token' ok hi hpending =>
    -- the entry of the ticket is gone
    replace hp : Function.update L.pending token' none token = some p := hp
    by_cases htoken : token = token'
    · subst htoken
      rw [Function.update_self] at hp
      cases hp
    · rw [Function.update_of_ne htoken] at hp
      exact .inl hp
  | disconnected =>
    obtain ⟨hold, -⟩ := Option.filter_eq_some_iff.mp hp
    exact .inl hold
  | disposed => cases hp
  | submitted | hosted | enrolled | unsubscribed | created | openRefused | opened | routed | polled | chunkRefused
  | abandoned | took | decoded | detached | parked | unparked | swept => exact .inl hp

theorem LedgerStep.log_prefix (h : LedgerStep A i k L L') : L.log <+: L'.log := by
  rcases h.log_cases with ⟨s, d, rest, -, -, -, -, -, hlog⟩ | ⟨new, hlog, -⟩
  · exact hlog ▸ List.prefix_append _ _
  · exact hlog ▸ List.prefix_append _ _

/-- The log only grows, and what is pending stays owed. -/
theorem LedgerSteps.owed (h : LedgerSteps A i k L L') (htaken : ∀ j, taken j → j < L.log.length)
    (hL : L.Owed taken k) : L.log <+: L'.log ∧ L'.Owed taken k := by
  refine h.induct (Q := fun L' => L.log <+: L'.log ∧ L'.Owed taken k) ?_ ⟨List.prefix_refl _, hL⟩
  rintro L₁ L₂ hstep ⟨hlog, howed⟩
  refine ⟨hlog.trans hstep.log_prefix, fun token p hp => ?_⟩
  rcases hstep.pending_cases hp with hold | ⟨idx, data, hnew⟩
  · obtain ⟨j, idx, hj, hnot⟩ := howed token p hold
    refine ⟨j, idx, ?_, hnot⟩
    obtain ⟨later, hlater⟩ := hstep.log_prefix
    rw [← hlater, List.getElem?_append_left (lt_of_dispatch hj), hj]
  -- a new message comes after all whose outcome was taken
  · refine ⟨L₁.log.length, idx, ?_, fun h => ?_⟩
    · rw [hnew, List.getElem?_concat_length]
      rfl
    · exact absurd (Nat.lt_of_lt_of_le (htaken _ h) hlog.length_le) (Nat.lt_irrefl _)

end Ledgers

/-! ## Runs -/

namespace Engine

section Runs

variable [Crates] {e : Engine RsStrategy Wire} {inputs : List (Input RsStrategy)} {i : Input RsStrategy}
  {src : Nat → Nat} {taken : Nat → Prop} {x t : Nat}

/-- A step with nothing more taken. -/
theorem step_owed (htaken : ∀ j, taken j → j < e.net.log.length) (h : ∀ k, (e.ledger k).Owed taken k) :
    e.net.log <+: (e.step i).2.net.log ∧ ∀ k, ((e.step i).2.ledger k).Owed taken k := by
  have hsteps : ∀ k, LedgerSteps Premises.none i k (e.ledger k) ((e.step i).2.ledger k) := fun k =>
    step_ledger i e k False.elim (fun _ _ _ _ _ _ => trivial) trivial trivial
  exact ⟨((hsteps ("", "")).owed htaken (h _)).1, fun k => ((hsteps k).owed htaken (h k)).2⟩

/-- A step that takes the outcome of message `x`: the pending entry of its ticket goes first. -/
theorem result_owed {peer p : PeerId} {c : ChannelId} {m : MessageId} {token : DispatchHandle} {idx : Nat}
    {ok : Bool} (htaken : ∀ j, taken j → j < e.net.log.length) (h : ∀ k, (e.ledger k).Owed taken k)
    (hx : e.net.log[x]?.bind Sent.dispatch? = some ((c, m), token, p, idx)) :
    e.net.log <+: (e.step (.event (.chunkSendResult peer c m token ok))).2.net.log
    ∧ ∀ k, ((e.step (.event (.chunkSendResult peer c m token ok))).2.ledger k).Owed
        (fun j => taken j ∨ j = x) k := by
  -- the entry goes before the session is drained, and the rest of the step is a run of the ledger
  have hacts := chunkSendResult_acts (D := premisedTerms Premises.none) trivial e peer c m token ok
    fun _ _ _ _ _ _ => trivial
  have hstart : (if (c, m, token) ∈ e.pendingSends then e.afterResolve peer c m token ok else e).net = e.net
      ∧ ∀ key q, (if (c, m, token) ∈ e.pendingSends then e.afterResolve peer c m token ok
          else e).pendingSends[key]? = some q → key ≠ (c, m, token) ∧ e.pendingSends[key]? = some q := by
    split
    case isTrue hpending =>
      refine ⟨rfl, fun key q hq => ?_⟩
      replace hq : (e.pendingSends.erase (c, m, token))[key]? = some q := hq
      rw [BTreeMap.get_erase] at hq
      split at hq
      · cases hq
      case isFalse hne => exact ⟨fun heq => hne heq.symm, hq⟩
    case isFalse hnone =>
      refine ⟨rfl, fun key q hq => ⟨fun heq => ?_, hq⟩⟩
      subst heq
      exact hnone (Std.ExtTreeMap.mem_iff_isSome_getElem?.mpr (by rw [hq]; rfl))
  generalize (if (c, m, token) ∈ e.pendingSends then e.afterResolve peer c m token ok else e) = e₁ at hacts hstart
  obtain ⟨hnet, hpending⟩ := hstart
  have hlt : ∀ j, taken j ∨ j = x → j < e₁.net.log.length := by
    rintro j (hj | rfl)
    · rw [hnet]
      exact htaken j hj
    · rw [hnet]
      exact lt_of_dispatch hx
  have howed : ∀ k, (e₁.ledger k).Owed (fun j => taken j ∨ j = x) k := by
    intro k token' q hq
    obtain ⟨hne, hold⟩ := hpending (k.1, k.2, token') q hq
    obtain ⟨j, idx', hj, hnot⟩ := h k token' q hold
    refine ⟨j, idx', ?_, ?_⟩
    · show e₁.net.log[j]?.bind Sent.dispatch? = _
      rw [hnet]
      exact hj
    · rintro (hj' | rfl)
      · exact hnot hj'
      -- the message has the ticket of the outcome
      · have heq := Option.some.inj (hj.symm.trans hx)
        obtain rfl : k = (c, m) := congrArg Prod.fst heq
        obtain rfl : token' = token := congrArg (fun d => d.2.1) heq
        exact hne rfl
  have hsteps := fun k => (Acts.ledger hacts False.elim k).owed hlt (howed k)
  refine ⟨?_, fun k => (hsteps k).2⟩
  rw [← hnet]
  exact (hsteps ("", "")).1

/-- The messages whose outcome is among the first `t` inputs. -/
def TakenBy (inputs : List (Input RsStrategy)) (src : Nat → Nat) (t j : Nat) : Prop :=
  ∃ t' < t, ∃ ht : t' < inputs.length, inputs[t'].isResult = true ∧ src t' = j

/-- **What is pending is owed**, in every run over a transport that reports as the engine expects. -/
theorem run_owed (hreports : e.Reports inputs src) (hstart : ∀ k, (e.ledger k).Owed (fun _ => False) k)
    (ht : t ≤ inputs.length) :
    (∀ j, TakenBy inputs src t j → j < (e.run (inputs.take t)).net.log.length)
    ∧ ∀ k, ((e.run (inputs.take t)).ledger k).Owed (TakenBy inputs src t) k := by
  induction t with
  | zero =>
    have hnone : ∀ j, ¬ TakenBy inputs src 0 j := by
      rintro j ⟨t', ht', -⟩
      exact absurd ht' (Nat.not_lt_zero _)
    refine ⟨fun j hj => absurd hj (hnone j), fun k token p hp => ?_⟩
    rw [List.take_zero] at hp ⊢
    obtain ⟨j, idx, hj, -⟩ := hstart k token p hp
    exact ⟨j, idx, hj, hnone j⟩
  | succ t ih =>
    obtain ⟨htaken, howed⟩ := ih (Nat.le_of_succ_le ht)
    have hlast : ∀ j, TakenBy inputs src (t + 1) j →
        TakenBy inputs src t j ∨ inputs[t].isResult = true ∧ src t = j := by
      rintro j ⟨t', ht', hlt, hres, rfl⟩
      rcases Nat.lt_succ_iff_lt_or_eq.mp ht' with hearlier | rfl
      · exact .inl ⟨t', hearlier, hlt, hres, rfl⟩
      · exact .inr ⟨hres, rfl⟩
    rw [run_take_succ e ht]
    by_cases hres : inputs[t].isResult = true
    -- an outcome: from now on its message is among those taken
    · obtain ⟨peer, c, m, token, ok, hi⟩ := Input.eq_of_isResult hres
      have hnamed := hreports.named t ht
      rw [hi] at hnamed ⊢
      obtain ⟨⟨key, token', p, idx⟩, hd, hkey, htoken, -⟩ := hnamed
      obtain rfl : key = (c, m) := hkey
      obtain rfl : token' = token := htoken
      obtain ⟨hlog, hstep⟩ := result_owed htaken howed hd
      have hmore : ∀ j, TakenBy inputs src (t + 1) j → TakenBy inputs src t j ∨ j = src t := fun j hj =>
        (hlast j hj).imp_right fun h => h.2.symm
      refine ⟨fun j hj => ?_, fun k token p hp => ?_⟩
      · rcases hmore j hj with hj | rfl
        · exact Nat.lt_of_lt_of_le (htaken j hj) hlog.length_le
        · exact Nat.lt_of_lt_of_le (lt_of_dispatch hd) hlog.length_le
      · obtain ⟨j, idx, hj, hnot⟩ := hstep k token p hp
        exact ⟨j, idx, hj, fun h => hnot (hmore j h)⟩
    · have hsame : ∀ j, TakenBy inputs src (t + 1) j → TakenBy inputs src t j := fun j hj =>
        (hlast j hj).resolve_right fun h => hres h.1
      obtain ⟨hlog, hstep⟩ := step_owed (i := inputs[t]) htaken howed
      refine ⟨fun j hj => Nat.lt_of_lt_of_le (htaken j (hsame j hj)) hlog.length_le, fun k token p hp => ?_⟩
      obtain ⟨j, idx, hj, hnot⟩ := hstep k token p hp
      exact ⟨j, idx, hj, fun h => hnot (hsame j h)⟩

end Runs

end Engine

/-! ## Nodes -/

theorem ticketsAt_of_dispatch {log : List Sent} {j : Nat} {c : ChannelId} {m : MessageId} {token : DispatchHandle}
    {p : PeerId} {idx : Nat} (h : log[j]?.bind Sent.dispatch? = some ((c, m), token, p, idx)) :
    ((c, m, token), j) ∈ ticketsAt p log ∧ ∃ sent ∈ log, sent.acceptedFor p ≠ none := by
  obtain ⟨sent, hsent, hdispatch⟩ := Option.bind_eq_some_iff.mp h
  unfold Sent.dispatch? at hdispatch
  split at hdispatch
  case h_1 p' c' m' idx' data token' =>
    cases hdispatch
    have haccepted : Sent.acceptedFor p ⟨.chunk p c m idx data token, .ok ()⟩
        = some (.chunk p c m idx data token) := by
      rw [Sent.acceptedFor_of_ok]
      exact if_pos rfl
    refine ⟨List.mem_filterMap.mpr ⟨(_, j), List.mk_mem_zipIdx_iff_getElem?.mpr hsent, ?_⟩, _,
      List.mem_of_getElem? hsent, by rw [haccepted]; simp⟩
    simp only [haccepted]
    rfl
  case h_2 => cases hdispatch

/-- An event with a ticket is an outcome. -/
theorem Input.isResult_of_ticket {i : Input RsStrategy} {ev : NetEvent} {ticket : Ticket} (hev : i.event? = some ev)
    (hticket : ev.ticket = some ticket) : i.isResult = true := by
  unfold NetEvent.ticket at hticket
  split at hticket
  · unfold event? at hev
    split at hev
    · cases hev
      rfl
    · cases hev
  · cases hticket

/-- Each of the outcomes of a peer is that of some input. -/
theorem Node.exists_outcome {inputs : List (Input RsStrategy)} {peer : PeerId} {n : Nat}
    (h : n < outcomes inputs inputs.length peer) :
    ∃ t, ∃ ht : t < inputs.length, ∃ ev ticket, inputs[t].event? = some ev ∧ ev.sender = peer
      ∧ ev.ticket = some ticket ∧ outcomes inputs t peer = n := by
  induction inputs using List.reverseRecOn with
  | nil => exact absurd h (Nat.not_lt_zero n)
  | append_singleton inputs i ih =>
    by_cases hold : n < outcomes inputs inputs.length peer
    · obtain ⟨t, ht, ev, ticket, hev, hsender, hticket, hn⟩ := ih hold
      refine ⟨t, by rw [List.length_append]; omega, ev, ticket, ?_, hsender, hticket, ?_⟩
      · rwa [List.getElem_append_left ht]
      · rwa [outcomes_append (Nat.le_of_lt ht)]
    · have hmore : outcomes (inputs ++ [i]) (inputs ++ [i]).length peer = outcomes inputs inputs.length peer
          + ((([i].filterMap Input.event?).filter fun ev => ev.sender = peer).filterMap NetEvent.ticket).length := by
        rw [outcomes, outcomes, List.take_length, List.take_length, List.filterMap_append, List.filter_append,
          List.filterMap_append, List.length_append]
      have hone : ((([i].filterMap Input.event?).filter fun ev => ev.sender = peer).filterMap
          NetEvent.ticket).length ≤ 1 :=
        ((List.length_filterMap_le _ _).trans (List.length_filter_le _ _)).trans (List.length_filterMap_le _ _)
      -- so the last input is one
      obtain ⟨ticket, hmem⟩ : ∃ ticket, ticket ∈ (([i].filterMap Input.event?).filter fun ev =>
          ev.sender = peer).filterMap NetEvent.ticket := by
        refine List.exists_mem_of_ne_nil _ fun hnone => ?_
        rw [hmore, hnone] at h
        exact hold h
      obtain ⟨ev, hev, hticket⟩ := List.mem_filterMap.mp hmem
      obtain ⟨hev, hsender⟩ := List.mem_filter.mp hev
      obtain ⟨i', hi', hevent⟩ := List.mem_filterMap.mp hev
      obtain rfl := List.mem_singleton.mp hi'
      refine ⟨inputs.length, by simp, ev, ticket, ?_, of_decide_eq_true hsender, hticket, ?_⟩
      · rwa [List.getElem_concat_length rfl]
      · rw [outcomes_append (Nat.le_refl _)]
        omega

section Streams

variable [Message Bcast] [Message Sess] [Message Header] [Message ChunkIdent] [Crates]

/-- **No outcome is lost.**  A chunk that is pending still waits at a connection of its peer, or its outcome is among
the events that came in and were not taken. -/
theorem Engine.hosted_owed {e : Engine RsStrategy Wire} {ts : List Node.Turn} {node : Node}
    (h : ({ engine := e } : Node).turns ts = some node) (hstart : e.net.log = [])
    (hpending : ∀ key, key ∉ e.pendingSends) (hids : node.net.conns.length ≤ 2 ^ 64) {ticket : Ticket}
    {p : PeerId} (hp : node.engine.pendingSends[ticket]? = some p) :
    (∃ conn ∈ node.net.conns, conn.peer = p ∧ ticket ∈ conn.backlog.filterMap NetSend.ticket)
    ∨ ∃ ev ∈ node.net.inbound.drop node.taken, ev.sender = p ∧ ev.ticket = some ticket := by
  have hruns := (Node.start_runs hstart).turns h hids
  rw [List.nil_append] at hruns
  generalize hinputs : ts.map Node.Turn.input = inputs at hruns
  obtain ⟨c, m, token⟩ := ticket
  -- the message whose outcome was not taken
  have hempty : ∀ k, (e.ledger k).Owed (fun _ => False) k := by
    intro k token q hq
    have hmem : (k.1, k.2, token) ∈ e.pendingSends :=
      Std.ExtTreeMap.mem_iff_isSome_getElem?.mpr (Option.isSome_of_mem hq)
    exact absurd hmem (hpending _)
  have howed := (run_owed hruns.reports hempty (Nat.le_refl inputs.length)).2 (c, m) token p
  rw [List.take_length, ← hruns.engine] at howed
  obtain ⟨j, idx, hj, hnot⟩ : ∃ j idx, node.engine.net.log[j]?.bind Sent.dispatch? = some ((c, m), token, p, idx)
    ∧ ¬ TakenBy inputs (Node.place inputs node.engine.net.log) inputs.length j := howed hp
  obtain ⟨hplace, sent, hsent, haccepted⟩ := ticketsAt_of_dispatch hj
  -- the connection it was accepted for
  obtain ⟨tasks, htasks⟩ := hruns.net
  have hviewed := QuicNet.tasks_reports htasks
  obtain ⟨j', conn, hconn, hpeer⟩ := hviewed.named.accepted sent hsent p haccepted
  have hsettles := (hviewed.views hids j' conn hconn).2.outcomes
  simp only [QuicNet.view, hpeer] at hsettles
  obtain ⟨n, hn⟩ := List.getElem?_of_mem hplace
  rcases Nat.lt_or_ge n (Node.outcomes inputs inputs.length p) with hlt | hge
  -- the outcomes come in order, so one of those taken would be its own
  · obtain ⟨t, ht, ev, ticket, hev, rfl, hticket, rfl⟩ := Node.exists_outcome hlt
    have hreported := (hruns.reported ht hev hticket).2
    rw [hn] at hreported
    cases hreported
    exact absurd ⟨t, ht, ht, Input.isResult_of_ticket hev hticket, rfl⟩ hnot
  -- past those that were taken are those still to be taken, and then those that wait
  · have hmem : ((ticketsAt p node.engine.net.log).map Prod.fst)[n]? = some (c, m, token) := by
      rw [List.getElem?_map, hn]
      rfl
    rw [ticketsAt_fst, hsettles, ← List.take_append_drop node.taken node.net.inbound, ← hruns.events,
      List.filter_append, List.filterMap_append, List.append_assoc, List.getElem?_append_right] at hmem
    · rcases List.mem_append.mp (List.mem_of_getElem? hmem) with hev | hwaits
      · obtain ⟨ev, hev, hticket⟩ := List.mem_filterMap.mp hev
        obtain ⟨hev, hsender⟩ := List.mem_filter.mp hev
        exact .inr ⟨ev, hev, of_decide_eq_true hsender, hticket⟩
      · exact .inl ⟨conn, List.mem_of_getElem? hconn, hpeer, hwaits⟩
    · rw [Node.outcomes, List.take_length] at hge
      exact hge

end Streams

section OneShard

attribute [local instance] oneShard Proto3.bcast Proto3.sess Proto3.header Proto3.ident

/-- The second of the two chunks, whose outcome waits in the inbound queue. -/
theorem Engine.hosted_owed_published :
    ∃ node, ({ engine := nodeTicking second } : Node).turns publishOverQuic = some node
      ∧ node.engine.pendingSends[(("c", "m", 1) : Ticket)]? = some 1
      ∧ ((∃ conn ∈ node.net.conns, conn.peer = 1 ∧ ("c", "m", 1) ∈ conn.backlog.filterMap NetSend.ticket)
        ∨ ∃ ev ∈ node.net.inbound.drop node.taken, ev.sender = 1 ∧ ev.ticket = some ("c", "m", 1)) := by
  have hrun : (({ engine := nodeTicking second } : Node).turns publishOverQuic).any
      (fun node => node.engine.pendingSends[(("c", "m", 1) : Ticket)]? = some 1 && node.net.conns.length = 1)
        = true := by
    decide +kernel
  obtain ⟨node, hnode, hok⟩ := (Option.any_eq_true _ _).mp hrun
  simp only [Bool.and_eq_true, decide_eq_true_eq] at hok
  exact ⟨node, hnode, hok.1,
    hosted_owed hnode rfl (fun _ => Std.ExtTreeMap.not_mem_empty) (by rw [hok.2]; decide) hok.1⟩

end OneShard

end Ethp2p
