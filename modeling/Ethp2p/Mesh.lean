/-
# Ethp2p.Mesh — a published message on its way through a lossy network.

A mesh is a set of engines and what the transport put before each of them, in order: `mail` is everything
that was ever on its way to a peer, and `read` is how much of it the engine has been stepped with.  In a turn
one engine takes one input.  What it submits meanwhile is appended to the mail of the destinations, or it is
lost; only a `SessionOpen` of the message is not.

Three facts hold of the mail in every turn (`Sound`): whoever an engine counts as opened has a `SessionOpen`
in its mail, a chunk has a `SessionOpen` in front of it, and what both say about the message is so.  A relay
that has read a part of such mail stands where `Ethp2p.Receiving` says, so it delivers exactly when the
shards it has read are enough (`delivers`).

A mesh knows no time, no fault rules and no queue.  `Ethp2p.Sim.Posts` shows that a simulation is one.
-/
import Ethp2p.Receiving
import Ethp2p.Opens
import Ethp2p.Publishing
import Ethp2p.Versions
import Ethp2p.Engine.Transport
import Ethp2p.Sim.Net

namespace Ethp2p

/-! ## What a step submits for a message -/

/-- Among the messages submitted so far, whoever is counted as opened, or was sent data, was told before or
was sent a `SessionOpen` first. -/
structure Ledger.Heralds (told : PeerId → Prop) (k : SessionKey) (L : Ledger) : Prop where
  balanced : L.Balanced
  remembered : ∀ p, L.openedTo.any (p ∈ ·) → told p ∨ ∃ sent ∈ L.log, sent.opensTo k p
  first : ∀ p before sent after, L.log = before ++ sent :: after → sent.dataTo k p →
    told p ∨ ∃ opening ∈ before, opening.opensTo k p

section Heralds

variable [Crates] {A : Premises} {i : Input RsStrategy} {k : SessionKey} {L L' : Ledger}
  {told : PeerId → Prop}

omit [Crates] in
/-- A message is submitted. -/
theorem Ledger.Heralds.submit (h : L.Heralds told k) (sent : Sent)
    (hdata : ∀ p, sent.dataTo k p → told p ∨ ∃ opening ∈ L.log, opening.opensTo k p) :
    { L with log := L.log ++ [sent] }.Heralds told k where
  balanced := { h.balanced with }
  remembered p hp := by
    rcases h.remembered p hp with htold | ⟨opening, hmem, hopens⟩
    · exact .inl htold
    · exact .inr ⟨opening, List.mem_append_left _ hmem, hopens⟩
  first p before x after heq hx := by
    have heq' : L.log ++ [sent] = before ++ x :: after := heq
    rcases List.eq_nil_or_concat after with rfl | ⟨after', y, rfl⟩
    · obtain ⟨rfl, hsent⟩ := List.append_inj' heq' rfl
      cases hsent
      exact hdata p hx
    · rw [List.concat_eq_append, ← List.cons_append, ← List.append_assoc] at heq'
      obtain ⟨hold, -⟩ := List.append_inj' heq' rfl
      exact h.first p before x after' hold hx

omit [Crates] in
/-- A change that keeps the log and forgets at most. -/
theorem Ledger.Heralds.mono (h : L.Heralds told k) (hbalanced : L'.Balanced) (hlog : L'.log = L.log)
    (hopened : ∀ p, L'.openedTo.any (p ∈ ·) → L.openedTo.any (p ∈ ·)) : L'.Heralds told k where
  balanced := hbalanced
  remembered p hp := by
    rw [hlog]
    exact h.remembered p (hopened p hp)
  first p before sent after heq := h.first p before sent after (hlog ▸ heq)

omit [Crates] in
/-- A live session has a preamble to open it with, so what it is sent to was opened. -/
theorem Ledger.Heralds.opened (h : L.Heralds told k) (hlive : L.session.isSome) {p : PeerId}
    (hopen : L.Opened p) : told p ∨ ∃ sent ∈ L.log, sent.opensTo k p := by
  rcases hopen with hopen | hnone
  · exact h.remembered p hopen
  · have hsome := h.balanced.preamble_isSome.trans hlive
    rw [hnone] at hsome
    cases hsome

/-- **Every change of a ledger keeps the order of opens and data.** -/
theorem LedgerStep.heralds (h : LedgerStep A i k L L') (hL : L.Heralds told k) : L'.Heralds told k := by
  have hbalanced := h.balanced hL.balanced
  cases h with
  | hosted | enrolled | unsubscribed | resolved | created | polled | abandoned | took | decoded | detached
  | parked | unparked | swept =>
    exact hL.mono hbalanced rfl fun _ => id
  | @submitted sent hother =>
    refine hL.submit _ fun p hdata => ?_
    rcases hdata with ⟨-, ⟨idx, data, token, hmsg⟩ | ⟨payload, hmsg⟩⟩ <;> rw [hmsg] at hother <;>
      exact absurd rfl hother
  -- a peer that is gone is forgotten to have the session open; nothing is sent to it before it is opened
  -- again
  | disconnected =>
    refine hL.mono hbalanced rfl fun p hp => ?_
    simp only [Ledger.disconnect] at hp
    cases ho : L.openedTo with
    | none => simp [ho] at hp
    | some peers =>
      simp only [ho, Option.map_some, Option.any_some, BTreeSet.mem_erase_iff] at hp ⊢
      simp only [decide_eq_true_eq] at hp ⊢
      exact hp.2
  | openRefused =>
    refine hL.submit _ fun p hdata => ?_
    exact absurd hdata.1 Bool.false_ne_true
  | @opened peer preamble hnew hpre hto =>
    have hsubmit := hL.submit ⟨.sessionOpen peer k.1 k.2 preamble [], .ok ()⟩ fun p hdata => by
      rcases hdata with ⟨-, ⟨idx, data, token, hmsg⟩ | ⟨payload, hmsg⟩⟩ <;> cases hmsg
    refine ⟨hbalanced, fun p hp => ?_, hsubmit.first⟩
    -- this is the `SessionOpen` that heralds what follows
    by_cases hpeer : peer = p
    · subst hpeer
      exact .inr ⟨_, List.mem_append_right _ (List.mem_singleton_self _), rfl, preamble, [], rfl⟩
    · refine hsubmit.remembered p ?_
      show L.openedTo.any (p ∈ ·)
      cases ho : L.openedTo with
      | none => simp [ho, hpeer] at hp
      | some peers => simpa [ho, hpeer] using hp
  | @routed peer payload answer hlive hto hopen =>
    refine hL.submit _ fun p hdata => ?_
    rcases hdata with ⟨-, ⟨idx, data, token, hmsg⟩ | ⟨payload', hmsg⟩⟩
    · cases hmsg
    · cases hmsg
      -- a routing update is behind the `SessionOpen` to its peer
      exact hL.opened hlive hopen
  | @chunkAccepted s d rest hs hd hopen =>
    have hsubmit := hL.submit ⟨.chunk d.peer k.1 k.2 d.chunkId d.payload d.handle, .ok ()⟩
      fun p hdata => by
        rcases hdata with ⟨-, ⟨idx, data, token, hmsg⟩ | ⟨payload, hmsg⟩⟩
        · cases hmsg
          exact hL.opened (by rw [hs]; rfl) hopen
        · cases hmsg
    exact hsubmit.mono hbalanced rfl fun _ => id
  | @chunkRefused s d rest err =>
    have hsubmit := hL.submit ⟨.chunk d.peer k.1 k.2 d.chunkId d.payload d.handle, .error err⟩
      fun p hdata => absurd hdata.1 Bool.false_ne_true
    exact hsubmit.mono hbalanced rfl fun _ => id
  | disposed =>
    refine hL.mono hbalanced rfl fun p hp => ?_
    cases hp

end Heralds

/-! ## What the transport does with it -/

section Mail

variable [Crates]

variable {pub : Publication} {src p : PeerId} {msg : NetSend} {ev : NetEvent} {sent : Sent}

/-- What brings the message was submitted as a `SessionOpen` or as a chunk of it. -/
theorem Publication.Brings.cases (h : pub.Brings ev) (hev : intoEvent src msg = some ev) :
    (∃ peer b u, msg = .sessionOpen peer pub.c pub.m b u ∧ ev = .sessionOpen src pub.c pub.m b u)
    ∨ ∃ peer idx data token, msg = .chunk peer pub.c pub.m idx data token
      ∧ ev = .chunk src pub.c pub.m idx data := by
  cases msg with
  | sessionOpen peer c m b u =>
    cases hev
    obtain ⟨rfl, rfl⟩ : c = pub.c ∧ m = pub.m := h
    exact .inl ⟨peer, b, u, rfl, rfl⟩
  | chunk peer c m idx data token =>
    cases hev
    obtain ⟨rfl, rfl⟩ : c = pub.c ∧ m = pub.m := h
    exact .inr ⟨peer, idx, data, token, rfl, rfl⟩
  | handshake | subscribe | unsubscribe | routingUpdate =>
    cases hev
    exact h.elim
  | sessionReconstructed => cases hev

/-- The shard of a chunk is submitted as data of the message. -/
theorem Sent.dataTo_of_shard (hacc : sent.accepted) (hdst : sent.msg.destPeer = some p)
    (hev : intoEvent src sent.msg = some ev) (h : (pub.shard? ev).isSome) : sent.dataTo pub.key p := by
  obtain ⟨idx, hidx⟩ := Option.isSome_iff_exists.mp h
  rcases (Publication.brings_of_shard hidx).cases hev with ⟨peer, b, u, -, rfl⟩ | ⟨peer, idx', data, token, hmsg, -⟩
  · cases hidx
  · rw [hmsg] at hdst
    cases hdst
    exact ⟨hacc, .inl ⟨idx', data, token, hmsg⟩⟩

/-- The transport passes on what `src` has submitted: `log` is what it was submitted, `lost` is what it
loses of this, and `mail'` is the mail of all peers afterwards.  It loses no `SessionOpen` of the message. -/
inductive Conveys (pub : Publication) (src : PeerId) (mail : PeerId → List NetEvent) :
    List Sent → List Sent → (PeerId → List NetEvent) → Prop
  | nil : Conveys pub src mail [] [] mail
  /-- What is refused, or meant for the transport itself, goes nowhere. -/
  | kept {log lost mail' sent} (h : Conveys pub src mail log lost mail')
      (hno : sent.accepted → sent.msg.destPeer = none) : Conveys pub src mail (log ++ [sent]) lost mail'
  | lost {log lost mail' sent} (h : Conveys pub src mail log lost mail')
      (hother : ∀ peer b u, sent.msg ≠ .sessionOpen peer pub.c pub.m b u) :
      Conveys pub src mail (log ++ [sent]) (lost ++ [sent]) mail'
  | carried {log lost mail' sent p ev} (h : Conveys pub src mail log lost mail') (hacc : sent.accepted)
      (hdst : sent.msg.destPeer = some p) (hev : intoEvent src sent.msg = some ev) :
      Conveys pub src mail (log ++ [sent]) lost (Function.update mail' p (mail' p ++ [ev]))
  /-- The transport has something to say itself. -/
  | noticed {log lost mail' p ev} (h : Conveys pub src mail log lost mail')
      (hev : ∀ c m, ¬ (Input.event ev : Input RsStrategy).feeds c m) :
      Conveys pub src mail log lost (Function.update mail' p (mail' p ++ [ev]))

variable {mail mail' : PeerId → List NetEvent} {log lost : List Sent}

omit [Crates] in
/-- Mail that is delivered to one peer. -/
theorem mem_update_mail {q : PeerId} {x : NetEvent} :
    x ∈ Function.update mail p (mail p ++ [ev]) q ↔ x ∈ mail q ∨ q = p ∧ x = ev := by
  by_cases hq : q = p
  · subst hq
    simp
  · simp [hq]

/-- Mail is only appended. -/
theorem Conveys.grows (h : Conveys pub src mail log lost mail') (q : PeerId) : mail q <+: mail' q := by
  have happend : ∀ {mail' : PeerId → List NetEvent} {p ev}, mail q <+: mail' q →
      mail q <+: Function.update mail' p (mail' p ++ [ev]) q := by
    intro mail' p ev hq
    by_cases hp : q = p
    · subst hp
      rw [Function.update_self]
      exact hq.trans (List.prefix_append _ _)
    · rwa [Function.update_of_ne hp]
  induction h with
  | nil => exact List.prefix_rfl
  | kept _ _ ih | lost _ _ ih => exact ih
  | carried _ _ _ _ ih | noticed _ _ ih => exact happend ih

/-- **Where mail comes from**: it was there, it was submitted, or it is of no message. -/
theorem Conveys.mem (h : Conveys pub src mail log lost mail') {q : PeerId} (hev : ev ∈ mail' q) :
    ev ∈ mail q
    ∨ (∃ sent ∈ log, sent.accepted ∧ sent.msg.destPeer = some q ∧ intoEvent src sent.msg = some ev)
    ∨ ∀ c m, ¬ (Input.event ev : Input RsStrategy).feeds c m := by
  induction h with
  | nil => exact .inl hev
  | kept _ _ ih | lost _ _ ih =>
    rcases ih hev with hold | ⟨sent, hsent, hprops⟩ | hother
    · exact .inl hold
    · exact .inr (.inl ⟨sent, List.mem_append_left _ hsent, hprops⟩)
    · exact .inr (.inr hother)
  | @carried log lost mail' sent p ev' _ hacc hdst hev' ih =>
    rcases mem_update_mail.mp hev with hev | ⟨rfl, rfl⟩
    · rcases ih hev with hold | ⟨sent, hsent, hprops⟩ | hother
      · exact .inl hold
      · exact .inr (.inl ⟨sent, List.mem_append_left _ hsent, hprops⟩)
      · exact .inr (.inr hother)
    · exact .inr (.inl ⟨sent, List.mem_append_right _ (List.mem_singleton_self _), hacc, hdst, hev'⟩)
  | noticed _ hother ih =>
    rcases mem_update_mail.mp hev with hev | ⟨rfl, rfl⟩
    · exact ih hev
    · exact .inr (.inr hother)

/-- What is accepted for a peer is in its mail, or was lost. -/
theorem Conveys.complete (h : Conveys pub src mail log lost mail') (hsent : sent ∈ log) (hacc : sent.accepted)
    (hdst : sent.msg.destPeer = some p) (hev : intoEvent src sent.msg = some ev) :
    sent ∈ lost ∨ ev ∈ mail' p := by
  induction h with
  | nil => cases hsent
  | @kept log lost mail' sent' _ hno ih =>
    rcases List.mem_append.mp hsent with hsent | hsent
    · exact ih hsent
    · obtain rfl := List.mem_singleton.mp hsent
      cases hdst.symm.trans (hno hacc)
  | lost _ _ ih =>
    rcases List.mem_append.mp hsent with hsent | hsent
    · exact (ih hsent).imp_left (List.mem_append_left _)
    · exact .inl (List.mem_append_right _ hsent)
  | @carried log lost mail' sent' q ev' _ _ hdst' hev' ih =>
    rcases List.mem_append.mp hsent with hsent | hsent
    · exact (ih hsent).imp_right fun hmem => mem_update_mail.mpr (.inl hmem)
    · obtain rfl := List.mem_singleton.mp hsent
      cases hdst.symm.trans hdst'
      cases hev.symm.trans hev'
      exact .inr (mem_update_mail.mpr (.inr ⟨rfl, rfl⟩))
  | noticed _ _ ih => exact (ih hsent).imp_right fun hmem => mem_update_mail.mpr (.inl hmem)

/-- In everybody's mail a chunk of the message has something of it in front. -/
def Publication.Heralded (pub : Publication) (mail : PeerId → List NetEvent) : Prop :=
  ∀ p before ev after, mail p = before ++ ev :: after → (pub.shard? ev).isSome →
    ∃ ev' ∈ before, pub.Brings ev'

/-- A shard that is behind news of the message is heralded. -/
theorem Publication.Heralded.append (h : pub.Heralded mail) {p : PeerId}
    (hev : (pub.shard? ev).isSome → ∃ ev' ∈ mail p, pub.Brings ev') :
    pub.Heralded (Function.update mail p (mail p ++ [ev])) := by
  intro q before x after heq hx
  by_cases hq : q = p
  · subst hq
    rw [Function.update_self] at heq
    rcases List.eq_nil_or_concat after with rfl | ⟨after', y, rfl⟩
    · obtain ⟨rfl, hlast⟩ := List.append_inj' heq rfl
      cases hlast
      exact hev hx
    · rw [List.concat_eq_append, ← List.cons_append, ← List.append_assoc] at heq
      obtain ⟨hold, -⟩ := List.append_inj' heq rfl
      exact h q before x after' hold hx
  · rw [Function.update_of_ne hq] at heq
    exact h q before x after heq hx

/-- **Opens stay in front of chunks**: no open is lost, and mail is delivered in the order it is
submitted. -/
theorem Conveys.heralded (h : Conveys pub src mail log lost mail') {told : PeerId → Prop}
    (htold : ∀ p, told p → ∃ ev ∈ mail p, pub.Brings ev)
    (hfirst : ∀ p before sent after, log = before ++ sent :: after → sent.dataTo pub.key p →
      told p ∨ ∃ opening ∈ before, opening.opensTo pub.key p)
    (hold : pub.Heralded mail) :
    pub.Heralded mail' ∧ ∀ p, ∀ sent ∈ log, sent.opensTo pub.key p → ∃ ev ∈ mail' p, pub.Brings ev := by
  -- the statement about a longer log is about its front, too
  have hfront : ∀ {log : List Sent} {sent : Sent},
      (∀ p before x after, log ++ [sent] = before ++ x :: after → x.dataTo pub.key p →
        told p ∨ ∃ opening ∈ before, opening.opensTo pub.key p) →
      ∀ p before x after, log = before ++ x :: after → x.dataTo pub.key p →
        told p ∨ ∃ opening ∈ before, opening.opensTo pub.key p := by
    intro log sent hfirst p before x after heq hx
    exact hfirst p before x (after ++ [sent]) (by rw [heq, List.append_assoc]; rfl) hx
  induction h with
  | nil => exact ⟨hold, fun p sent hsent => by cases hsent⟩
  | @kept log lost mail' sent h hno ih =>
    obtain ⟨hheralded, hopens⟩ := ih (hfront hfirst)
    refine ⟨hheralded, fun p x hx hopen => ?_⟩
    rcases List.mem_append.mp hx with hx | hx
    · exact hopens p x hx hopen
    · obtain rfl := List.mem_singleton.mp hx
      obtain ⟨hacc, b, u, hmsg⟩ := hopen
      have hnone := hno hacc
      rw [hmsg] at hnone
      cases hnone
  | @lost log lost mail' sent h hother ih =>
    obtain ⟨hheralded, hopens⟩ := ih (hfront hfirst)
    refine ⟨hheralded, fun p x hx hopen => ?_⟩
    rcases List.mem_append.mp hx with hx | hx
    · exact hopens p x hx hopen
    · obtain rfl := List.mem_singleton.mp hx
      obtain ⟨-, b, u, hmsg⟩ := hopen
      exact absurd hmsg (hother p b u)
  | @carried log lost mail' sent q ev h hacc hdst hev ih =>
    obtain ⟨hheralded, hopens⟩ := ih (hfront hfirst)
    refine ⟨hheralded.append fun hshard => ?_, fun p x hx hopen => ?_⟩
    · -- the chunk was submitted to somebody who had been told
      rcases hfirst q log sent [] rfl (Sent.dataTo_of_shard hacc hdst hev hshard) with ht | ⟨x, hx, hopen⟩
      · obtain ⟨ev', hev', hbrings⟩ := htold q ht
        exact ⟨ev', (h.grows q).subset hev', hbrings⟩
      · exact hopens q x hx hopen
    · rcases List.mem_append.mp hx with hx | hx
      · obtain ⟨ev', hev', hbrings⟩ := hopens p x hx hopen
        exact ⟨ev', mem_update_mail.mpr (.inl hev'), hbrings⟩
      · obtain rfl := List.mem_singleton.mp hx
        obtain ⟨-, b, u, hmsg⟩ := hopen
        rw [hmsg] at hdst hev
        cases hdst
        cases hev
        exact ⟨_, mem_update_mail.mpr (.inr ⟨rfl, rfl⟩), rfl, rfl⟩
  | @noticed log lost mail' q ev h hother ih =>
    obtain ⟨hheralded, hopens⟩ := ih hfirst
    refine ⟨hheralded.append fun hshard => ?_, fun p x hx hopen => ?_⟩
    · obtain ⟨idx, hidx⟩ := Option.isSome_iff_exists.mp hshard
      exact absurd (Publication.brings_of_shard hidx) (hother pub.c pub.m)
    · obtain ⟨ev', hev', hbrings⟩ := hopens p x hx hopen
      exact ⟨ev', mem_update_mail.mpr (.inl hev'), hbrings⟩

end Mail

/-! ## The mesh -/

/-- The transport of an engine between two turns. -/
def Wire.idle : Wire := ⟨fun _ _ => .ok (), []⟩

/-- An input takes an event off the mail, or none. -/
def Input.reads : Input RsStrategy → Nat
  | .event _ => 1
  | _ => 0

namespace Engine

variable {N : Type}

/-- The engine with a transport and a clock for one turn. -/
def lent (e : Engine RsStrategy N) (w : Wire) (clock : Clock) : Engine RsStrategy Wire :=
  { e with net := w, clock }

/-- The engine with an empty sink. -/
def emptied (e : Engine RsStrategy N) : Engine RsStrategy N :=
  { e with delivered := { e.delivered with queue := [] } }

variable [Crates] {pub : Publication} {e : Engine RsStrategy Wire} {w : Wire} {t₀ : Instant}
  {events : List NetEvent}

omit [Crates] in
/-- An engine that is lent an unused wire has the same ledgers. -/
theorem ledger_lent (hlog : w.log = e.net.log) (clock : Clock) (k : SessionKey) :
    (e.lent w clock).ledger k = e.ledger k := by
  unfold lent ledger
  rw [← hlog]
  rfl

/-- An engine that is lent an unused wire is as orderly as it was. -/
theorem Orderly.lent (h : e.Orderly) (w : Wire) (clock : Clock) : (e.lent w clock).Orderly where
  factories := h.factories
  waits := h.waits
  balanced k := { h.balanced k with }
  lawful k := { h.lawful k with }

/-- An engine that is lent an unused wire is as faithful as it was. -/
theorem Faithful.lent (h : Faithful pub e) (hlog : w.log = []) (clock : Clock) :
    Faithful pub (e.lent w clock) where
  retained := h.retained
  stored := h.stored
  factories := h.factories
  opens := by simp [Engine.lent, hlog]
  chunks := by simp [Engine.lent, hlog]
  queued := h.queued

/-- An engine that is lent an unused wire stands as it did. -/
theorem Stands.lent (h : e.Stands pub t₀ events) (hlog : w.log = []) (clock : Clock) :
    (e.lent w clock).Stands pub t₀ events := by
  cases h with
  | waiting hblank hhosted hquiet =>
    refine .waiting { hblank with unsubmitted := ?_ } hhosted hquiet
    simp [ledger, Engine.lent, hlog]
  | collecting h hdated =>
    cases h with
    | live h => exact .collecting (.live { h with }) hdated
    | buried hnone htomb hsince henough => exact .collecting (.buried hnone htomb hsince henough) hdated

end Engine

/-- Engines, the mail of each, how much of it each has read, and everything each put into its sink. -/
structure Mesh where
  engines : PeerId → Option (Engine RsStrategy Wire)
  mail : PeerId → List NetEvent
  read : PeerId → Nat
  out : PeerId → List DeliveredMessage

namespace Mesh

variable [Crates] {pub : Publication} {M M' : Mesh} {q p : PeerId} {i : Input RsStrategy}
  {e : Engine RsStrategy Wire} {lost : List Sent} {t₀ : Instant}

/-- **One turn**: the engine of `q` takes an input; if it is an event, it is the next one of its mail. -/
structure Turn (pub : Publication) (M M' : Mesh) (q : PeerId) (i : Input RsStrategy)
    (e : Engine RsStrategy Wire) (lost : List Sent) : Prop where
  lent : ∃ e₀, M.engines q = some e₀ ∧ ∃ w clock, w.log = [] ∧ e = e₀.lent w clock
  next : ∀ ev, i = .event ev → (M.mail q)[M.read q]? = some ev
  conveyed : Conveys pub q M.mail (e.step i).2.net.log lost M'.mail
  engines : M'.engines = Function.update M.engines q (some ((e.step i).2.onWire .idle))
  read : M'.read = Function.update M.read q (M.read q + i.reads)
  out : M'.out = Function.update M.out q
    (M.out q ++ (e.step i).2.delivered.queue.drop e.delivered.queue.length)

/-- What holds of a mesh in which the message is published as it is. -/
structure Sound (pub : Publication) (M : Mesh) : Prop where
  idle : ∀ q e, M.engines q = some e → e.net.log = []
  orderly : ∀ q e, M.engines q = some e → e.Orderly
  faithful : ∀ q e, M.engines q = some e → Engine.Faithful pub e
  told : ∀ q e p, M.engines q = some e → e.openedTo[pub.key]?.any (p ∈ ·) → ∃ ev ∈ M.mail p, pub.Brings ev
  heralded : pub.Heralded M.mail
  genuine : ∀ p, ∀ ev ∈ M.mail p, pub.Backs ev
  read : ∀ p, M.read p ≤ (M.mail p).length

omit [Crates] in
/-- An engine after one of them was replaced. -/
theorem update_eq_some {engines : PeerId → Option (Engine RsStrategy Wire)} {e' : Engine RsStrategy Wire}
    (h : Function.update engines q (some e) p = some e') :
    (p = q ∧ e' = e) ∨ (p ≠ q ∧ engines p = some e') := by
  by_cases hp : p = q
  · subst hp
    rw [Function.update_self] at h
    exact .inl ⟨rfl, (Option.some.inj h).symm⟩
  · rw [Function.update_of_ne hp] at h
    exact .inr ⟨hp, h⟩

/-- What the engine of a turn brings into it. -/
theorem Sound.lent (hM : M.Sound pub) (h : Turn pub M M' q i e lost) :
    e.net.log = [] ∧ e.Orderly ∧ Engine.Faithful pub e
    ∧ ∀ p, e.openedTo[pub.key]?.any (p ∈ ·) → ∃ ev ∈ M.mail p, pub.Brings ev := by
  obtain ⟨e₀, he₀, w, clock, hlog, rfl⟩ := h.lent
  exact ⟨hlog, (hM.orderly q e₀ he₀).lent w clock, (hM.faithful q e₀ he₀).lent hlog clock,
    fun p hp => hM.told q e₀ p he₀ hp⟩

/-- An engine that has its turn is not stepped with anything but its mail. -/
theorem Sound.inputFaithful (hM : M.Sound pub) (h : Turn pub M M' q i e lost) (hi : Engine.HostsRelays i)
    (hpub : ∀ strategy b, i = .publish pub.c pub.m strategy b →
      b = pub.preambleBytes ∧ Genuine pub.preamble strategy) : Engine.InputFaithful pub i where
  sessionOpen peer b u hopen := by
    have hnext := h.next _ hopen
    exact hM.genuine q _ (List.mem_of_getElem? hnext) rfl rfl
  publish := hpub
  subscribe := hi

/-- What a step from an unused transport submits for the message is in the order of opens and data. -/
theorem heralds_step {told : PeerId → Prop} (horderly : e.Orderly) (hlog : e.net.log = [])
    (htold : ∀ p, e.openedTo[pub.key]?.any (p ∈ ·) → told p) (i : Input RsStrategy) :
    ((e.step i).2.ledger pub.key).Heralds told pub.key := by
  have hstart : (e.ledger pub.key).Heralds told pub.key := by
    refine ⟨horderly.balanced _, fun p hp => .inl (htold p hp), fun p before sent after heq => ?_⟩
    have hempty : e.net.log = before ++ sent :: after := heq
    rw [hlog] at hempty
    simp at hempty
  exact (Engine.step_ledger (A := .none) i e pub.key False.elim (fun _ _ _ _ _ _ => trivial) trivial
    trivial).induct (fun hstep hL => hstep.heralds hL) hstart

/-- **A turn keeps the mesh sound.** -/
theorem Turn.sound (h : Turn pub M M' q i e lost)
    (hprost : Crates.preambleDecode pub.preambleBytes = .ok pub.preamble) (hi : Engine.HostsRelays i)
    (hpub : ∀ strategy b, i = .publish pub.c pub.m strategy b →
      b = pub.preambleBytes ∧ Genuine pub.preamble strategy) (hM : M.Sound pub) : M'.Sound pub := by
  obtain ⟨hlog, horderly, hfaithful, htold⟩ := hM.lent h
  have hfaithful' := hfaithful.step (hM.inputFaithful h hi hpub) hprost
  have horderly' := horderly.step hi
  have hheralds := heralds_step horderly hlog htold i
  obtain ⟨hheralded, hopens⟩ := h.conveyed.heralded (fun _ => id) hheralds.first hM.heralded
  -- the engine that takes the turn, or one that does not
  have hother : ∀ {q' e'}, M'.engines q' = some e' →
      (q' = q ∧ e' = (e.step i).2.onWire .idle) ∨ M.engines q' = some e' := by
    intro q' e' he'
    rw [h.engines] at he'
    exact (update_eq_some he').imp_right And.right
  refine
    { idle := fun q' e' he' => ?_
      orderly := fun q' e' he' => ?_
      faithful := fun q' e' he' => ?_
      told := fun q' e' p he' hp => ?_
      heralded := hheralded
      genuine := fun p ev hev => ?_
      read := fun p => ?_ }
  · rcases hother he' with ⟨rfl, rfl⟩ | he'
    · rfl
    · exact hM.idle q' e' he'
  · rcases hother he' with ⟨rfl, rfl⟩ | he'
    · exact horderly'.lent .idle _
    · exact hM.orderly q' e' he'
  · rcases hother he' with ⟨rfl, rfl⟩ | he'
    · exact hfaithful'.lent rfl _
    · exact hM.faithful q' e' he'
  · rcases hother he' with ⟨rfl, rfl⟩ | he'
    -- the session is open to the peer since before the step, or the step opened it; either way the news is
    -- in the peer's mail
    · rcases hheralds.remembered p hp with hbrings | ⟨sent, hsent, hopen⟩
      · obtain ⟨ev, hev, hbrings⟩ := hbrings
        exact ⟨ev, (h.conveyed.grows p).subset hev, hbrings⟩
      · exact hopens p sent hsent hopen
    · obtain ⟨ev, hev, hbrings⟩ := hM.told q' e' p he' hp
      exact ⟨ev, (h.conveyed.grows p).subset hev, hbrings⟩
  · rcases h.conveyed.mem hev with hold | ⟨sent, hsent, -, -, hinto⟩ | hforeign
    · exact hM.genuine p ev hold
    · -- what an engine submits agrees with the publication
      cases ev with
      | sessionOpen peer c m b u =>
        rintro rfl rfl
        have hbrings : pub.Brings (.sessionOpen peer pub.c pub.m b u) := ⟨rfl, rfl⟩
        rcases hbrings.cases hinto with ⟨dst, b', u', hmsg, heq⟩ | ⟨dst, idx, data, token, -, heq⟩
        · cases heq
          exact hfaithful'.opens sent hsent dst b u hmsg
        · cases heq
      | chunk peer c m idx data =>
        rintro rfl rfl
        have hbrings : pub.Brings (.chunk peer pub.c pub.m idx data) := ⟨rfl, rfl⟩
        rcases hbrings.cases hinto with ⟨dst, b', u', -, heq⟩ | ⟨dst, idx', data', token, hmsg, heq⟩
        · cases heq
        · cases heq
          exact hfaithful'.chunks sent hsent dst idx data token hmsg
      | handshake | subscribe | unsubscribe | routingUpdate | peerDisconnected | peerConnected
      | chunkSendResult | peerReconstructed | sessionClosed => trivial
    · cases ev with
      | sessionOpen peer c m b u => exact absurd ⟨rfl, rfl⟩ (hforeign c m)
      | chunk peer c m idx data => exact absurd ⟨rfl, rfl⟩ (hforeign c m)
      | handshake | subscribe | unsubscribe | routingUpdate | peerDisconnected | peerConnected
      | chunkSendResult | peerReconstructed | sessionClosed => trivial
  · have hgrows := (h.conveyed.grows p).length_le
    rw [h.read]
    -- the peer that takes the turn reads one event at most
    by_cases hp : p = q
    · subst hp
      rw [Function.update_self]
      cases i with
      | event ev =>
        obtain ⟨hlt, -⟩ := List.getElem?_eq_some_iff.mp (h.next ev rfl)
        exact Nat.le_trans hlt hgrows
      | subscribe | connect | publish | recv => exact Nat.le_trans (hM.read p) hgrows
    · rw [Function.update_of_ne hp]
      exact Nat.le_trans (hM.read p) hgrows

/-! ## One relay -/

/-- What the relay has read and what it has put into its sink agree: the message, once, when the shards it
has read are enough. -/
structure Follows (pub : Publication) (t₀ : Instant) (p : PeerId) (M : Mesh) : Prop where
  stands : ∃ e, M.engines p = some e ∧ e.Stands pub t₀ ((M.mail p).take (M.read p))
  put : (M.out p).filter (fun d => d.channelId = pub.c ∧ d.messageId = pub.m)
    = if pub.needed ≤ (pub.arrived ((M.mail p).take (M.read p))).card
      then [⟨pub.c, pub.m, pub.payload⟩] else []

omit [Crates] in
/-- Mail that was not read yet makes no difference. -/
theorem take_grown {l l' : List NetEvent} (h : l <+: l') {n : Nat} (hn : n ≤ l.length) :
    l'.take n = l.take n := by
  obtain ⟨more, rfl⟩ := h
  exact List.take_append_of_le_length hn

/-- **The turn of another engine** is nothing to the relay. -/
theorem Follows.other (h : Turn pub M M' q i e lost) (hM : M.Sound pub) (hp : p ≠ q)
    (hrelay : M.Follows pub t₀ p) : M'.Follows pub t₀ p := by
  obtain ⟨e', he', hstands⟩ := hrelay.stands
  have hread : M'.read p = M.read p := by rw [h.read, Function.update_of_ne hp]
  have htake := take_grown (h.conveyed.grows p) (hM.read p)
  refine ⟨⟨e', ?_, ?_⟩, ?_⟩
  · rw [h.engines, Function.update_of_ne hp, he']
  · rwa [hread, htake]
  · rw [h.out, Function.update_of_ne hp, hread, htake]
    exact hrelay.put

/-- **The relay's own turn**: it takes the next event of its mail into account, and what is no event does
not matter. -/
theorem Follows.own (h : Turn pub M M' p i e lost) (hM : M.Sound pub) (hsha : Sha256Len) (hrs : RsCorrect)
    (hprost : Crates.preambleDecode pub.preambleBytes = .ok pub.preamble)
    (hforeign : ∀ strategy b, i ≠ .publish pub.c pub.m strategy b) (hwithin : e.Within t₀)
    (hcoll : ∀ peer idx data, i = .event (.chunk peer pub.c pub.m idx data) →
      ∀ b ∈ pub.shards, sha256 data = sha256 b → data = b)
    (hroom : e.delivered.hasRoom) (hrelay : M.Follows pub t₀ p) : M'.Follows pub t₀ p := by
  obtain ⟨-, horderly, -, -⟩ := hM.lent h
  obtain ⟨e₀, he₀, w, clock, hlog, rfl⟩ := h.lent
  obtain ⟨e', he', hstands₀⟩ := hrelay.stands
  obtain rfl := Option.some.inj (he'.symm.trans he₀)
  have hstands := hstands₀.lent hlog clock
  have hengine : M'.engines p = some (((e'.lent w clock).step i).2.onWire .idle) := by
    rw [h.engines, Function.update_self]
  have hput : (M'.out p).filter (fun d => d.channelId = pub.c ∧ d.messageId = pub.m)
      = (M.out p).filter (fun d => d.channelId = pub.c ∧ d.messageId = pub.m)
        ++ (e'.lent w clock).delivered.put pub.c pub.m ((e'.lent w clock).step i).2.delivered := by
    rw [h.out, Function.update_self, List.filter_append]
    rfl
  cases i with
  | event ev =>
    have hnext := h.next ev rfl
    obtain ⟨hlt, hev⟩ := List.getElem?_eq_some_iff.mp hnext
    have htake : (M'.mail p).take (M'.read p) = (M.mail p).take (M.read p) ++ [ev] := by
      rw [h.read, Function.update_self]
      show (M'.mail p).take (M.read p + 1) = _
      rw [take_grown (h.conveyed.grows p) hlt, List.take_succ_eq_append_getElem hlt, hev]
    have hmem : ev ∈ M.mail p := List.mem_of_getElem? hnext
    obtain ⟨hstands', hnew⟩ := hstands.event hsha hrs hprost horderly hwithin (hM.genuine p ev hmem)
      (fun peer idx data heq => hcoll peer idx data (congrArg Input.event heq))
      (fun peer idx data heq => by
        -- what is in front of the chunk in the mail was read before it
        have hsplit : M.mail p = (M.mail p).take (M.read p) ++ ev :: (M.mail p).drop (M.read p + 1) := by
          rw [← hev, List.cons_getElem_drop_succ, List.take_append_drop]
        exact hM.heralded p _ ev _ hsplit (by rw [heq]; simp [Publication.shard?]))
      (fun _ => hroom)
    refine ⟨⟨_, hengine, ?_⟩, ?_⟩
    · rw [htake]
      exact hstands'.lent (w := .idle) rfl _
    · have hmore : (pub.arrived ((M.mail p).take (M.read p))).card
          ≤ (pub.arrived ((M.mail p).take (M.read p) ++ [ev])).card := by
        rw [Publication.arrived_concat]
        exact Finset.card_le_card Finset.subset_union_left
      rw [hput, hrelay.put, hnew, htake]
      by_cases hbefore : pub.needed ≤ (pub.arrived ((M.mail p).take (M.read p))).card
      · rw [if_pos hbefore, if_pos (hbefore.trans hmore), if_neg fun hboth => Nat.not_lt_of_le hbefore hboth.1,
          List.append_nil]
      · by_cases hafter : pub.needed ≤ (pub.arrived ((M.mail p).take (M.read p) ++ [ev])).card
        · rw [if_neg hbefore, if_pos hafter, if_pos ⟨Nat.lt_of_not_le hbefore, hafter⟩, List.nil_append]
        · rw [if_neg hbefore, if_neg hafter, if_neg fun hboth => hafter hboth.2, List.nil_append]
  | subscribe | connect | publish | recv =>
    have htake : (M'.mail p).take (M'.read p) = (M.mail p).take (M.read p) := by
      rw [h.read, Function.update_self]
      exact take_grown (h.conveyed.grows p) (hM.read p)
    obtain ⟨hstands', hnone⟩ := hstands.foreign horderly hwithin ⟨id, hforeign⟩
    refine ⟨⟨_, hengine, ?_⟩, ?_⟩
    · rw [htake]
      have hsame := hstands' [] fun ev hev => by cases hev
      rw [List.append_nil] at hsame
      exact hsame.lent (w := .idle) rfl _
    · rw [hput, hrelay.put, hnone, htake, List.append_nil]

/-! ## Before the publish -/

/-- Nobody has heard of the message. -/
structure Unheard (pub : Publication) (M : Mesh) : Prop extends M.Sound pub where
  blank : ∀ q e, M.engines q = some e → (e.ledger pub.key).Blank pub.key
  quiet : ∀ p, ∀ ev ∈ M.mail p, ¬ pub.Brings ev
  unput : ∀ p, ∀ d ∈ M.out p, ¬ (d.channelId = pub.c ∧ d.messageId = pub.m)

/-- **As long as nobody publishes the message**, nobody hears of it. -/
theorem Turn.unheard (h : Turn pub M M' q i e lost)
    (hprost : Crates.preambleDecode pub.preambleBytes = .ok pub.preamble) (hi : Engine.HostsRelays i)
    (hpub : ∀ strategy b, i ≠ .publish pub.c pub.m strategy b) (hM : M.Unheard pub) : M'.Unheard pub := by
  have hsound := h.sound hprost hi (fun strategy b hpublish => absurd hpublish (hpub strategy b)) hM.toSound
  -- the input neither feeds the session nor publishes it
  have hforeign : i.Foreign pub.c pub.m := by
    refine ⟨fun hfeeds => ?_, hpub⟩
    cases i with
    | event ev => exact hM.quiet q ev (List.mem_of_getElem? (h.next ev rfl)) hfeeds
    | subscribe | connect | publish | recv => exact hfeeds
  obtain ⟨e₀, he₀, w, clock, hlog, rfl⟩ := h.lent
  have hblank : ((e₀.lent w clock).ledger pub.key).Blank pub.key := by
    rw [Engine.ledger_lent (hlog.trans (hM.idle q e₀ he₀).symm)]
    exact hM.blank q e₀ he₀
  have hblank' := Engine.step_blank hforeign hblank
  refine { hsound with blank := fun q' e' he' => ?_, quiet := fun p ev hev hbrings => ?_, unput := fun p d hd => ?_ }
  · rw [h.engines] at he'
    rcases update_eq_some he' with ⟨rfl, rfl⟩ | ⟨-, he'⟩
    · exact { hblank' with unsubmitted := by simp [Engine.ledger, Engine.onWire, Wire.idle] }
    · exact hM.blank q' e' he'
  · rcases h.conveyed.mem hev with hold | ⟨sent, hsent, -, -, hinto⟩ | hother
    · exact hM.quiet p ev hold hbrings
    · -- nothing under the key was submitted
      have hkey := hblank'.unsubmitted sent hsent
      rcases hbrings.cases hinto with ⟨dst, b, u, hmsg, -⟩ | ⟨dst, idx, data, token, hmsg, -⟩ <;>
        rw [hmsg] at hkey <;> exact hkey rfl
    · exact hother pub.c pub.m hbrings
  · rw [h.out] at hd
    by_cases hp : p = q
    · subst hp
      rw [Function.update_self] at hd
      rcases List.mem_append.mp hd with hd | hd
      · exact hM.unput p d hd
      · have hput := Engine.put_blank hforeign hblank
        rw [Sink.put, List.filter_eq_nil_iff] at hput
        simpa using hput d hd
    · rw [Function.update_of_ne hp] at hd
      exact hM.unput p d hd

/-- A relay of the channel that has not heard of the message waits for it. -/
theorem Unheard.follows (hM : M.Unheard pub) (hneeded : 0 < pub.needed) (t₀ : Instant)
    (hengine : M.engines p = some e) (hhosted : pub.c ∈ e.channels) : M.Follows pub t₀ p := by
  have hquiet : ∀ ev ∈ (M.mail p).take (M.read p), ¬ pub.Brings ev := fun ev hev =>
    hM.quiet p ev (List.mem_of_mem_take hev)
  refine ⟨⟨e, hengine, .waiting (hM.blank p e hengine) hhosted hquiet⟩, ?_⟩
  rw [Publication.arrived_of_quiet hquiet, Finset.card_empty, if_neg (Nat.not_le_of_lt hneeded),
    List.filter_eq_nil_iff]
  simpa using hM.unput p

/-! ## The publish -/

/-- The indices of the chunks to a peer. -/
def chunksTo (p : PeerId) (log : List Sent) : List Nat :=
  log.filterMap fun sent =>
    match sent.msg with
    | .chunk peer _ _ idx _ _ => if peer = p then some idx else none
    | _ => none

/-- A publish that is accepted throughout submits every shard to every subscriber. -/
theorem publish_submits (hrs : RsCorrect) {seed : UInt64} {strategy : RsStrategy}
    (hnew : RsStrategy.newOriginWithSeed pub.payload pub.config seed = .ok strategy)
    (hlog : e.net.log = []) (hblank : (e.ledger pub.key).Blank pub.key)
    (hacc : ∀ sent ∈ (e.step (.publish pub.c pub.m strategy pub.preambleBytes)).2.net.log, sent.accepted)
    (hsub : p ∈ e.subscribersOf pub.c) {idx : Nat} (hidx : idx < pub.shards.length) :
    ∃ sent ∈ (e.step (.publish pub.c pub.m strategy pub.preambleBytes)).2.net.log, ∃ data token,
      sent.msg = .chunk p pub.c pub.m idx data token := by
  have hchunkAt : ∀ i, strategy.chunkAt i = pub.shards[i]? := by
    simp only [RsStrategy.newOriginWithSeed, pub.encoded, Except.ok.injEq] at hnew
    subst hnew
    intro i
    simp only [RsStrategy.withParts, RsStrategy.chunkAt, List.getD_eq_getElem?_getD, List.getElem?_map]
    cases pub.shards[i]? <;> rfl
  cases hch : e.channels[pub.c]? with
  | none =>
    rw [Engine.subscribersOf, hch] at hsub
    cases hsub
  | some ch =>
    rw [Engine.subscribersOf, hch] at hsub
    obtain ⟨before, routing, after, shards, ⟨s, hs, hnil⟩, htotal, hchunks, -, hnet, -⟩ :=
      Engine.publish_accepted hrs hch hblank.session hblank.openedTo pub.preambleBytes hnew
        (fun sent hsent => hacc sent (List.mem_of_mem_drop hsent))
    have hshards : shards = pub.shards :=
      List.ext_getElem? fun i => (hchunks i).symm.trans (hchunkAt i)
    -- every shard is among what is sent to the peer
    have hserved : Engine.Served strategy pub.c pub.m pub.preambleBytes p (Engine.toPeer p
        (ch.subscribers.toList.map (fun p => .sessionOpen p pub.c pub.m pub.preambleBytes [])
          ++ (before.map (·.message pub.c pub.m)
            ++ (Engine.routingTo pub.c pub.m ch.subscribers.toList routing
              ++ after.map (·.message pub.c pub.m))))) :=
      Engine.served_of_sent hs hnil htotal hchunks ch.subscribers.nodup_toList hsub
    have hrange : (idx, strategy.chunkAt idx)
        ∈ (List.range strategy.totalShards).map fun idx => (idx, strategy.chunkAt idx) :=
      List.mem_map.mpr ⟨idx, List.mem_range.mpr (by rwa [htotal, hshards]), rfl⟩
    obtain ⟨d, hd, hpair⟩ := List.mem_map.mp (hserved.shards.mem_iff.mpr hrange)
    obtain ⟨msg, hmsg, hdispatch⟩ := List.mem_filterMap.mp hd
    obtain ⟨hmem, hdst⟩ := List.mem_filter.mp hmsg
    have hkey := Engine.sessionKey_of_mem hmem
    show ∃ sent ∈ (e.publish pub.c pub.m strategy pub.preambleBytes).2.net.log, _
    refine ⟨⟨msg, .ok ()⟩, ?_, ?_⟩
    · rw [hnet, Wire.taking, hlog]
      exact List.mem_map.mpr ⟨msg, hmem, rfl⟩
    -- only a chunk is a dispatch
    · cases msg with
      | chunk peer c m chunkId payload token =>
        cases hdispatch
        obtain ⟨hidx', -⟩ := Prod.mk.inj hpair
        obtain ⟨rfl, rfl⟩ := Prod.mk.inj (Option.some.inj hkey)
        have hpeer : some peer = some p := of_decide_eq_true hdst
        have hid : chunkId = idx := hidx'
        obtain rfl := Option.some.inj hpeer
        exact ⟨payload, token, by rw [hid]⟩
      | handshake | subscribe | unsubscribe | sessionOpen | routingUpdate | sessionReconstructed =>
        cases hdispatch

/-- **Every shard that was not lost on the way to a subscriber** is in the subscriber's mail after the
publish. -/
theorem Turn.published (hrs : RsCorrect) {seed : UInt64} {strategy : RsStrategy}
    (hnew : RsStrategy.newOriginWithSeed pub.payload pub.config seed = .ok strategy)
    (h : Turn pub M M' q (.publish pub.c pub.m strategy pub.preambleBytes) e lost) (hM : M.Unheard pub)
    (hacc : ∀ sent ∈ (e.step (.publish pub.c pub.m strategy pub.preambleBytes)).2.net.log, sent.accepted)
    (hsub : p ∈ e.subscribersOf pub.c) :
    Finset.range pub.shards.length ⊆ pub.arrived (M'.mail p) ∪ (chunksTo p lost).toFinset := by
  intro idx hidx
  obtain ⟨e₀, he₀, w, clock, hlog, rfl⟩ := h.lent
  have hblank : ((e₀.lent w clock).ledger pub.key).Blank pub.key := by
    rw [Engine.ledger_lent (hlog.trans (hM.idle q e₀ he₀).symm)]
    exact hM.blank q e₀ he₀
  obtain ⟨sent, hsent, data, token, hmsg⟩ := publish_submits hrs hnew hlog hblank hacc hsub
    (Finset.mem_range.mp hidx)
  have hdst : sent.msg.destPeer = some p := by
    rw [hmsg]
    rfl
  have hev : intoEvent q sent.msg = some (.chunk q pub.c pub.m idx data) := by
    rw [hmsg]
    rfl
  rw [Finset.mem_union]
  rcases h.conveyed.complete hsent (hacc sent hsent) hdst hev with hlost | hmail
  · refine .inr (List.mem_toFinset.mpr (List.mem_filterMap.mpr ⟨sent, hlost, ?_⟩))
    rw [hmsg]
    exact if_pos rfl
  · exact .inl (List.mem_toFinset.mpr (List.mem_filterMap.mpr ⟨_, hmail, if_pos ⟨rfl, rfl⟩⟩))

/-- With at most the parity lost, enough is left. -/
theorem needed_of_lost (hrs : RsCorrect) {D : Finset Nat} {ids : List Nat}
    (hall : Finset.range pub.shards.length ⊆ D ∪ ids.toFinset)
    (hlost : ids.toFinset.card ≤ asUsize pub.preamble.numParity) : pub.needed ≤ D.card := by
  obtain ⟨k, m, chunkLen, henc⟩ := encode_ok pub.encoded
  have hcard := (Finset.card_le_card hall).trans (Finset.card_union_le _ _)
  rw [Finset.card_range, henc.length_shards hrs] at hcard
  rw [henc.asUsize_numParity] at hlost
  rw [Publication.needed, henc.asUsize_numData]
  omega

/-! ## Runs -/

/-- The application of an engine has taken everything out of its sink. -/
def emptied (M : Mesh) (q : PeerId) (e : Engine RsStrategy Wire) : Mesh :=
  { M with
    engines := Function.update M.engines q (some e.emptied) }

/-- One step of a mesh in which nobody publishes the message.  `ok` is what is known of the turns. -/
inductive Move (pub : Publication) (ok : PeerId → Engine RsStrategy Wire → Input RsStrategy → Prop)
    (M : Mesh) : Mesh → Prop
  | turn {M' : Mesh} {q : PeerId} {i : Input RsStrategy} {e : Engine RsStrategy Wire} {lost : List Sent}
      (h : Turn pub M M' q i e lost) (hi : Engine.HostsRelays i)
      (hforeign : ∀ strategy b, i ≠ .publish pub.c pub.m strategy b) (hok : ok q e i) : Move pub ok M M'
  | emptied {q : PeerId} {e : Engine RsStrategy Wire} (h : M.engines q = some e) :
      Move pub ok M (M.emptied q e)

/-- What has to be known of the turns of a relay: the time, that there is room in its sink, and that the
chunks it is stepped with collide with no shard. -/
def Attended (pub : Publication) (t₀ : Instant) (p : PeerId) (q : PeerId) (e : Engine RsStrategy Wire)
    (i : Input RsStrategy) : Prop :=
  q = p → e.Within t₀ ∧ e.delivered.hasRoom
    ∧ ∀ peer idx data, i = .event (.chunk peer pub.c pub.m idx data) →
      ∀ b ∈ pub.shards, sha256 data = sha256 b → data = b

variable {ok : PeerId → Engine RsStrategy Wire → Input RsStrategy → Prop}

/-- Emptying a sink is nothing to the invariants. -/
theorem Sound.emptied (hM : M.Sound pub) (he : M.engines q = some e) : (M.emptied q e).Sound pub := by
  have hother : ∀ {q' e'}, (M.emptied q e).engines q' = some e' →
      ∃ e₁, M.engines q' = some e₁ ∧ (e' = e₁ ∨ e' = e₁.emptied) := by
    intro q' e' he'
    rcases update_eq_some he' with ⟨rfl, rfl⟩ | ⟨-, he'⟩
    · exact ⟨e, he, .inr rfl⟩
    · exact ⟨e', he', .inl rfl⟩
  refine { hM with
    idle := fun q' e' he' => ?_
    orderly := fun q' e' he' => ?_
    faithful := fun q' e' he' => ?_
    told := fun q' e' p he' hp => ?_ }
  all_goals obtain ⟨e₁, he₁, rfl | rfl⟩ := hother he'
  · exact hM.idle q' e' he₁
  · exact hM.idle q' e₁ he₁
  · exact hM.orderly q' e' he₁
  · have horderly := hM.orderly q' e₁ he₁
    exact ⟨horderly.factories, horderly.waits, fun k => { horderly.balanced k with },
      fun k => { horderly.lawful k with }⟩
  · exact hM.faithful q' e' he₁
  · exact { hM.faithful q' e₁ he₁ with queued := by simp [Engine.emptied] }
  · exact hM.told q' e' p he₁ hp
  · exact hM.told q' e₁ p he₁ hp

/-- Emptying sinks and waiting for the message. -/
theorem Unheard.emptied (hM : M.Unheard pub) (he : M.engines q = some e) : (M.emptied q e).Unheard pub := by
  refine { hM.toSound.emptied he with blank := fun q' e' he' => ?_, quiet := hM.quiet, unput := hM.unput }
  rcases update_eq_some he' with ⟨rfl, rfl⟩ | ⟨-, he'⟩
  · exact { hM.blank q' e he with }
  · exact hM.blank q' e' he'

/-- An application that takes its messages changes nothing for a relay that follows. -/
theorem Follows.emptied (hrelay : M.Follows pub t₀ p) (he : M.engines q = some e) :
    (M.emptied q e).Follows pub t₀ p := by
  obtain ⟨e', he', hstands⟩ := hrelay.stands
  by_cases hp : p = q
  · subst hp
    obtain rfl := Option.some.inj (he'.symm.trans he)
    refine ⟨⟨_, Function.update_self .., ?_⟩, hrelay.put⟩
    cases hstands with
    | waiting hblank hhosted hquiet => exact .waiting { hblank with } hhosted hquiet
    | collecting h hdated =>
      cases h with
      | live h => exact .collecting (.live { h with }) hdated
      | buried hnone htomb hsince henough => exact .collecting (.buried hnone htomb hsince henough) hdated
  · exact ⟨⟨e', (Function.update_of_ne hp ..).trans he', hstands⟩, hrelay.put⟩

/-- **Before the publish**: nobody hears of the message. -/
theorem Move.unheard (h : Move pub ok M M')
    (hprost : Crates.preambleDecode pub.preambleBytes = .ok pub.preamble) (hM : M.Unheard pub) :
    M'.Unheard pub := by
  cases h with
  | turn hturn hi hforeign => exact hturn.unheard hprost hi hforeign hM
  | emptied he => exact hM.emptied he

/-- **After the publish**: mail grows, it stays sound, and the relay follows it. -/
theorem Move.follows (h : Move pub (Attended pub t₀ p) M M') (hsha : Sha256Len) (hrs : RsCorrect)
    (hprost : Crates.preambleDecode pub.preambleBytes = .ok pub.preamble) (hM : M.Sound pub)
    (hrelay : M.Follows pub t₀ p) : M'.Sound pub ∧ M'.Follows pub t₀ p ∧ ∀ q, M.mail q <+: M'.mail q := by
  cases h with
  | @turn _ q i e lost hturn hi hforeign hok =>
    refine ⟨hturn.sound hprost hi (fun strategy b hpub => absurd hpub (hforeign strategy b)) hM, ?_,
      hturn.conveyed.grows⟩
    by_cases hp : p = q
    · subst hp
      obtain ⟨hwithin, hroom, hcoll⟩ := hok rfl
      exact hrelay.own hturn hM hsha hrs hprost hforeign hwithin hcoll hroom
    · exact hrelay.other hturn hM hp
  | emptied he => exact ⟨hM.emptied he, hrelay.emptied he, fun q => List.prefix_rfl⟩

/-- **A relay of the mesh delivers the message, once, exactly when the shards it has read are enough**, and
they are enough when it has read all its mail and the publish lost it no more than the parity. -/
theorem delivers (hsha : Sha256Len) (hrs : RsCorrect)
    (hprost : Crates.preambleDecode pub.preambleBytes = .ok pub.preamble) {M₀ M₁ : Mesh} {o : PeerId}
    {e₀ e : Engine RsStrategy Wire} {seed : UInt64} {strategy : RsStrategy}
    (hnew : RsStrategy.newOriginWithSeed pub.payload pub.config seed = .ok strategy)
    (hunheard : M₀.Unheard pub) (hengine : M₀.engines p = some e₀) (hhosted : pub.c ∈ e₀.channels)
    (hpublish : Turn pub M₀ M₁ o (.publish pub.c pub.m strategy pub.preambleBytes) e lost) (hp : p ≠ o)
    (hmoves : Relation.ReflTransGen (Move pub (Attended pub t₀ p)) M₁ M) :
    (M.out p).filter (fun d => d.channelId = pub.c ∧ d.messageId = pub.m)
      = (if pub.needed ≤ (pub.arrived ((M.mail p).take (M.read p))).card
        then [⟨pub.c, pub.m, pub.payload⟩] else [])
    ∧ ((∀ sent ∈ (e.step (.publish pub.c pub.m strategy pub.preambleBytes)).2.net.log, sent.accepted) →
      p ∈ e.subscribersOf pub.c →
      (chunksTo p lost).toFinset.card ≤ asUsize pub.preamble.numParity → M.read p = (M.mail p).length →
      pub.needed ≤ (pub.arrived ((M.mail p).take (M.read p))).card) := by
  obtain ⟨k, m, chunkLen, henc⟩ := encode_ok pub.encoded
  have hneeded : 0 < pub.needed := by
    rw [Publication.needed, henc.asUsize_numData]
    exact (henc.shape_bounds hrs).1
  have hhosts : Engine.HostsRelays (.publish pub.c pub.m strategy pub.preambleBytes) := by
    rintro c factory hsubscribe
    cases hsubscribe
  have hsound₁ : M₁.Sound pub := hpublish.sound hprost hhosts (fun strategy' b heq => by
    cases heq
    exact ⟨rfl, newOrigin_genuine hnew⟩) hunheard.toSound
  have hfollows₁ : M₁.Follows pub t₀ p :=
    (hunheard.follows hneeded t₀ hengine hhosted).other hpublish hunheard.toSound hp
  -- by induction on the moves: the peer follows the message, and its mail only grows
  obtain ⟨-, hfollows, hgrown⟩ : M.Sound pub ∧ M.Follows pub t₀ p ∧ M₁.mail p <+: M.mail p := by
    induction hmoves with
    | refl => exact ⟨hsound₁, hfollows₁, List.prefix_rfl⟩
    | tail _ hmove ih =>
      obtain ⟨hsound, hfollows, hgrown⟩ := ih
      obtain ⟨hsound', hfollows', hgrows⟩ := hmove.follows hsha hrs hprost hsound hfollows
      exact ⟨hsound', hfollows', hgrown.trans (hgrows p)⟩
  refine ⟨hfollows.put, fun hacc hsub hlost hread => ?_⟩
  have hall := hpublish.published hrs hnew hunheard hacc hsub
  -- what arrived in one piece of the mail has arrived in all of it
  refine (needed_of_lost hrs hall hlost).trans (Finset.card_le_card ?_)
  rw [hread, List.take_length]
  obtain ⟨more, hmore⟩ := hgrown
  rw [← hmore, Publication.arrived, Publication.arrived, List.filterMap_append, List.toFinset_append]
  exact Finset.subset_union_left

end Mesh

end Ethp2p
