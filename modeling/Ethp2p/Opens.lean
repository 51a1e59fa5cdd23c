/-
# Ethp2p.Opens — a session is opened to a peer before any of its data, and once.

`ensure_session_open` is called from three places, and it is lazy: it sends a `SessionOpen` unless one
was accepted before, and it sends nothing when no preamble is retained.  What the peer sees is still in
order.  `run_opensFirst` follows one life of a session, from the input that creates it to the one whose
sweep disposes it: between two disconnects of a peer the transport accepts at most one `SessionOpen`
for it, with the preamble the session was created with, and no chunk or routing update before it.

The life is what makes this true.  A retained preamble, and the memory of who the session was opened
to, come and go with the session (`Ledger.Balanced`); so as long as it lives, "not opened and nothing
to open it with" cannot happen, and `opened_to` is exactly what was accepted.
-/
import Ethp2p.Bookkeeping

namespace Ethp2p

open Std

/-- The input asks for a session of key `k` to be created with this preamble. -/
def Input.creates (k : SessionKey) (preamble : Bytes) : Input RsStrategy → Prop
  | .publish c m _ b | .event (.sessionOpen _ c m b _) => (c, m) = k ∧ b = preamble
  | _ => False

/-- A `SessionOpen` of the session of `k` to `p` that was accepted. -/
def Sent.opensTo (k : SessionKey) (p : PeerId) (sent : Sent) : Prop :=
  sent.accepted ∧ ∃ preamble update, sent.msg = .sessionOpen p k.1 k.2 preamble update

/-- A chunk or a routing update of the session of `k` to `p` that was accepted. -/
def Sent.dataTo (k : SessionKey) (p : PeerId) (sent : Sent) : Prop :=
  sent.accepted ∧ ((∃ idx data token, sent.msg = .chunk p k.1 k.2 idx data token)
    ∨ ∃ payload, sent.msg = .routingUpdate p k.1 k.2 payload)

/-- Among the messages, the session of `k` is opened to `p` before any of its data, at most once, and
with this preamble. -/
structure OpenedFirst (k : SessionKey) (p : PeerId) (preamble : Bytes) (log : List Sent) : Prop where
  first : ∀ before sent after, log = before ++ sent :: after → sent.dataTo k p →
    ∃ opening ∈ before, opening.opensTo k p
  once : log.Pairwise fun sent later => ¬ (sent.opensTo k p ∧ later.opensTo k p)
  carries : ∀ sent ∈ log, sent.opensTo k p → sent.msg = .sessionOpen p k.1 k.2 preamble []

namespace OpenedFirst

variable {k : SessionKey} {p : PeerId} {preamble : Bytes} {log : List Sent} {sent : Sent}

/-- An empty log has nothing to open. -/
theorem nil : OpenedFirst k p preamble [] where
  first _ _ _ h := by simp at h
  once := .nil
  carries _ h := by simp at h

theorem concat (h : OpenedFirst k p preamble log)
    (hdata : sent.dataTo k p → ∃ opening ∈ log, opening.opensTo k p)
    (hopen : sent.opensTo k p → (∀ opening ∈ log, ¬ opening.opensTo k p)
      ∧ sent.msg = .sessionOpen p k.1 k.2 preamble []) :
    OpenedFirst k p preamble (log ++ [sent]) where
  first before x after heq hx := by
    rcases List.eq_nil_or_concat after with rfl | ⟨after', y, rfl⟩
    · obtain ⟨rfl, hsent⟩ := List.append_inj' heq rfl
      cases hsent
      exact hdata hx
    · rw [List.concat_eq_append, ← List.cons_append, ← List.append_assoc] at heq
      obtain ⟨rfl, -⟩ := List.append_inj' heq rfl
      exact h.first before x after' rfl hx
  once := by
    refine List.pairwise_append.mpr ⟨h.once, List.pairwise_singleton _ _, fun x hx y hy hboth => ?_⟩
    obtain rfl := List.mem_singleton.mp hy
    exact (hopen hboth.2).1 x hx hboth.1
  carries x hx hopens := by
    rcases List.mem_append.mp hx with hx | hx
    · exact h.carries x hx hopens
    · obtain rfl := List.mem_singleton.mp hx
      exact (hopen hopens).2

end OpenedFirst

/-! ## One ledger -/

namespace Ledger

variable {L L' : Ledger} {i j : Input RsStrategy} {k : SessionKey} {p : PeerId} {preamble : Bytes}
  {n : Nat}

/-- The session lives with this preamble, or input `i` may still create it with it. -/
structure Retains (preamble : Bytes) (i : Input RsStrategy) (k : SessionKey) (L : Ledger) : Prop where
  balanced : L.Balanced
  kept : ∀ b, L.preamble = some b → b = preamble
  unborn : L.session = none → ∀ b, i.creates k b → b = preamble

/-- What is remembered of the opens of a session agrees with what was accepted after the first `n`
messages. -/
structure Window (p : PeerId) (preamble : Bytes) (n : Nat) (i : Input RsStrategy) (k : SessionKey)
    (L : Ledger) : Prop extends L.Retains preamble i k where
  start : n ≤ L.log.length
  opens : OpenedFirst k p preamble (L.log.drop n)
  remembered : L.session.isSome →
    (L.openedTo.any (p ∈ ·) ↔ ∃ sent ∈ L.log.drop n, sent.opensTo k p)
  unopened : L.session = none → (∃ b, i.creates k b) → ∀ sent ∈ L.log.drop n, ¬ sent.opensTo k p

/-- Nothing is created any more by an input that creates nothing. -/
theorem Window.settled (h : L.Window p preamble n i k) : L.Window p preamble n .recv k :=
  { h with unborn := fun _ _ => False.elim, unopened := fun _ ⟨_, hb⟩ => hb.elim }

/-- The next input finds the session alive. -/
theorem Window.next (h : L.Window p preamble n .recv k) (hlive : L.session.isSome) :
    L.Window p preamble n j k := by
  have hsome : L.session ≠ none := Option.isSome_iff_ne_none.mp hlive
  exact { h with unborn := fun hnone => absurd hnone hsome, unopened := fun hnone => absurd hnone hsome }

/-- A session that lives has its preamble. -/
theorem Retains.preamble_eq (h : L.Retains preamble i k) (hlive : L.session.isSome) :
    L.preamble = some preamble := by
  obtain ⟨b, hb⟩ := Option.isSome_iff_exists.mp (h.balanced.preamble_isSome ▸ hlive)
  rw [hb, h.kept b hb]

/-- What was sent data, while the session lives, was opened. -/
theorem Window.opened (h : L.Window p preamble n i k) (hlive : L.session.isSome)
    (hopen : L.Opened p) : ∃ sent ∈ L.log.drop n, sent.opensTo k p := by
  rcases hopen with hopen | hnone
  · exact (h.remembered hlive).mp hopen
  · rw [h.preamble_eq hlive] at hnone
    cases hnone

/-- A message is submitted that opens nothing to `p`. -/
theorem Window.submit (h : L.Window p preamble n i k) {sent : Sent} (hopens : ¬ sent.opensTo k p)
    (hdata : sent.dataTo k p → ∃ opening ∈ L.log.drop n, opening.opensTo k p) :
    { L with log := L.log ++ [sent] }.Window p preamble n i k := by
  have hdrop : (L.log ++ [sent]).drop n = L.log.drop n ++ [sent] := List.drop_append_of_le_length h.start
  have hexists : (∃ x ∈ (L.log ++ [sent]).drop n, x.opensTo k p)
      ↔ ∃ x ∈ L.log.drop n, x.opensTo k p := by
    rw [hdrop]
    simp [or_and_right, exists_or, hopens]
  have hbalanced := h.balanced
  refine ⟨⟨⟨hbalanced.info_isSome, hbalanced.preamble_isSome, hbalanced.live_of_opened,
    hbalanced.live_of_pending⟩, h.kept, h.unborn⟩, h.start.trans (by simp), ?_, fun hlive => ?_,
    fun hnone hb => ?_⟩
  · rw [hdrop]
    exact h.opens.concat hdata fun ho => absurd ho hopens
  · rw [hexists]
    exact h.remembered hlive
  · have hold := h.unopened hnone hb
    rintro x hx ho
    obtain ⟨y, hy, hyo⟩ := hexists.mp ⟨x, hx, ho⟩
    exact hold y hy hyo

/-- A message is refused. -/
theorem Window.refuse (h : L.Window p preamble n i k) (msg : NetSend) (err : NetError) :
    { L with log := L.log ++ [Sent.mk msg (.error err)] }.Window p preamble n i k :=
  h.submit (fun ho => Bool.false_ne_true ho.1) fun hd => absurd hd.1 Bool.false_ne_true

/-- A change that keeps the log, and the preamble, the liveness and the opens of the session. -/
theorem Window.mono (h : L.Window p preamble n i k) (hbalanced : L'.Balanced)
    (hlog : L'.log = L.log) (hpre : L'.preamble = L.preamble)
    (hlive : L'.session.isSome = L.session.isSome)
    (hopened : L'.openedTo.any (p ∈ ·) = L.openedTo.any (p ∈ ·)) :
    L'.Window p preamble n i k := by
  have hnone : L'.session = none → L.session = none := by
    rw [← Option.not_isSome_iff_eq_none, ← Option.not_isSome_iff_eq_none, hlive]
    exact id
  refine ⟨⟨hbalanced, fun b hb => h.kept b (hpre ▸ hb), fun hs => h.unborn (hnone hs)⟩, hlog ▸ h.start,
    hlog ▸ h.opens, fun hs => ?_, fun hs => ?_⟩
  · rw [hopened, hlog]
    exact h.remembered (hlive ▸ hs)
  · rw [hlog]
    exact h.unopened (hnone hs)

/-- The peer's own `SessionOpen` is accepted and remembered. -/
theorem Window.remember (h : L.Window p preamble n i k) {b : Bytes} (hnew : ¬ L.openedTo.any (p ∈ ·))
    (hpre : L.preamble = some b)
    (hretains : { L with
      openedTo := some ((L.openedTo.getD ∅).insert p)
      log := L.log ++ [Sent.mk (.sessionOpen p k.1 k.2 b []) (.ok ())] }.Retains preamble i k) :
    { L with
      openedTo := some ((L.openedTo.getD ∅).insert p)
      log := L.log ++ [Sent.mk (.sessionOpen p k.1 k.2 b []) (.ok ())] }.Window p preamble n i k := by
  have hlive : L.session.isSome := h.balanced.preamble_isSome ▸ (by rw [hpre]; rfl)
  have hdrop : (L.log ++ [Sent.mk (.sessionOpen p k.1 k.2 b []) (.ok ())]).drop n
      = L.log.drop n ++ [Sent.mk (.sessionOpen p k.1 k.2 b []) (.ok ())] :=
    List.drop_append_of_le_length h.start
  refine ⟨hretains, h.start.trans (by simp), ?_, fun _ => ?_, fun hnone => ?_⟩
  · rw [hdrop]
    refine h.opens.concat ?_ fun _ => ⟨fun sent hsent ho => ?_, ?_⟩
    · rintro ⟨-, ⟨idx, data, token, hmsg⟩ | ⟨payload, hmsg⟩⟩ <;> cases hmsg
    · -- it would be remembered if it had been sent before
      exact hnew ((h.remembered hlive).mpr ⟨sent, hsent, ho⟩)
    · rw [h.kept b hpre]
  · rw [hdrop]
    refine iff_of_true (by simp) ⟨_, List.mem_append_right _ (List.mem_singleton_self _), rfl, ?_⟩
    exact ⟨b, [], rfl⟩
  · have hsome : L.session = none := hnone
    rw [hsome] at hlive
    cases hlive

/-- A session starts that was sent to nobody in this window. -/
theorem Window.started (h : L.Window p preamble n i k) (hsession : L.session = none)
    (hcreates : ∃ b, i.creates k b) {s : Session RsStrategy} {b : Bytes} {info : SessionMeta}
    (hretains : { L with session := some s, preamble := some b, info := some info }.Retains preamble i k) :
    { L with session := some s, preamble := some b, info := some info }.Window p preamble n i k := by
  -- a session that is not live is open nowhere
  have hopened : L.openedTo = none := by
    cases ho : L.openedTo with
    | none => rfl
    | some peers =>
      have hlive := h.balanced.live_of_opened (by rw [ho]; rfl)
      rw [hsession] at hlive
      cases hlive
  refine ⟨hretains, h.start, h.opens, fun _ => ?_, fun hs => by cases hs⟩
  refine iff_of_false ?_ ?_
  · simp [hopened]
  · rintro ⟨sent, hsent, ho⟩
    exact h.unopened hsession hcreates sent hsent ho

end Ledger

section Steps

variable [Crates] {A : Premises} {i : Input RsStrategy} {k : SessionKey} {L L' : Ledger} {p : PeerId}
  {preamble : Bytes} {n : Nat}

omit [Crates] in
/-- A session is created by an input that says so. -/
theorem Creation.creates {state : SessionState} {strategy : RsStrategy}
    (h : Creation i k L preamble state strategy) : i.creates k preamble := by
  cases h with
  | relay hi | origin hi =>
    subst hi
    exact ⟨rfl, rfl⟩

/-- The preamble is the session's as long as it lives. -/
theorem LedgerStep.retains (h : LedgerStep A i k L L') (hdies : A.sweeps → ∀ b, ¬ i.creates k b)
    (hL : L.Retains preamble i k) : L'.Retains preamble i k := by
  have hbalanced := h.balanced hL.balanced
  have hnone : ∀ {f : Session RsStrategy → Session RsStrategy}, L.session.map f = none →
      L.session = none := Option.map_eq_none_iff.mp
  cases h with
  | submitted | hosted | openRefused | opened | routed | chunkAccepted | abandoned | parked | unparked
  | swept =>
    exact ⟨hbalanced, hL.kept, hL.unborn⟩
  | enrolled | unsubscribed | resolved => exact ⟨hbalanced, hL.kept, fun hs => hL.unborn (hnone hs)⟩
  | disconnected =>
    refine ⟨hbalanced, hL.kept, fun hs => ?_⟩
    simp only [Ledger.disconnect] at hs
    split at hs
    · exact hL.unborn (hnone hs)
    · exact hL.unborn hs
  | created hsession hsubs hnew =>
    refine ⟨hbalanced, fun b hb => ?_, fun hs => by cases hs⟩
    cases hb
    exact hL.unborn hsession _ hnew.creates
  | polled | chunkRefused | took | detached | decoded =>
    exact ⟨hbalanced, hL.kept, fun hs => by cases hs⟩
  | disposed hsweeps => exact ⟨hbalanced, (fun b hb => by cases hb), fun _ b hb => absurd hb (hdies hsweeps b)⟩

/-- **What is remembered of the opens agrees with what was accepted**, until the peer is gone. -/
theorem LedgerStep.window (h : LedgerStep A i k L L') (hstays : i ≠ .event (.peerDisconnected p))
    (hdies : A.sweeps → ∀ b, ¬ i.creates k b) (hL : L.Window p preamble n i k) :
    L'.Window p preamble n i k := by
  have hretains := h.retains hdies hL.toRetains
  cases h with
  | hosted | abandoned | parked | unparked | swept => exact hL.mono hretains.balanced rfl rfl rfl rfl
  | enrolled | unsubscribed | resolved =>
    exact hL.mono hretains.balanced rfl rfl (by simp) rfl
  | polled hs | took _ hs | decoded _ hs | detached _ hs =>
    exact hL.mono hretains.balanced rfl rfl (by simp [hs]) rfl
  -- a message of no session, or of another
  | submitted hkey =>
    refine hL.submit ?_ ?_
    · rintro ⟨-, b, u, hmsg⟩
      rw [hmsg] at hkey
      exact hkey rfl
    · rintro ⟨-, ⟨idx, data, token, hmsg⟩ | ⟨payload, hmsg⟩⟩ <;> rw [hmsg] at hkey <;>
        exact absurd rfl hkey
  -- another peer is gone
  | @disconnected q hi =>
    have hqp : q ≠ p := by
      rintro rfl
      exact hstays hi
    refine hL.mono hretains.balanced rfl rfl ?_ ?_
    · simp only [Ledger.disconnect]
      split <;> simp
    · simp only [Ledger.disconnect]
      cases L.openedTo <;> simp [hqp]
  | created hsession hsubs hnew =>
    exact hL.started hsession ⟨_, hnew.creates⟩ hretains
  | openRefused => exact hL.refuse _ _
  | @opened q b hnew hpre hto =>
    by_cases hqp : q = p
    · subst hqp
      exact hL.remember hnew hpre hretains
    · -- an open to another peer
      have hsubmit : { L with log := L.log ++ [Sent.mk (.sessionOpen q k.1 k.2 b []) (.ok ())] }.Window p preamble
          n i k := by
        refine hL.submit ?_ ?_
        · rintro ⟨-, b', u, hmsg⟩
          cases hmsg
          exact hqp rfl
        · rintro ⟨-, ⟨idx, data, token, hmsg⟩ | ⟨payload, hmsg⟩⟩ <;> cases hmsg
      refine hsubmit.mono hretains.balanced rfl rfl rfl ?_
      cases L.openedTo <;> simp [hqp]
  -- data is behind the `SessionOpen` to its peer
  | @routed q payload answer hlive hto hopen =>
    refine hL.submit ?_ ?_
    · rintro ⟨-, b, u, hmsg⟩
      cases hmsg
    · rintro ⟨-, ⟨idx, data, token, hmsg⟩ | ⟨payload', hmsg⟩⟩
      · cases hmsg
      · cases hmsg
        exact hL.opened hlive hopen
  | @chunkAccepted s d rest hs hd hopen =>
    have hsubmit : { L with
        log := L.log ++ [Sent.mk (.chunk d.peer k.1 k.2 d.chunkId d.payload d.handle) (.ok ())] }.Window p
        preamble n i k := by
      refine hL.submit ?_ ?_
      · rintro ⟨-, b, u, hmsg⟩
        cases hmsg
      · rintro ⟨-, ⟨idx, data, token, hmsg⟩ | ⟨payload, hmsg⟩⟩
        · cases hmsg
          exact hL.opened (by rw [hs]; rfl) hopen
        · cases hmsg
    exact hsubmit.mono hretains.balanced rfl rfl rfl rfl
  | @chunkRefused s d rest err hs hd hopen =>
    have hsubmit : { L with
        log := L.log ++ [Sent.mk (.chunk d.peer k.1 k.2 d.chunkId d.payload d.handle) (.error err)] }.Window p
        preamble n i k := hL.refuse _ _
    exact hsubmit.mono hretains.balanced rfl rfl (by simp [hs]) rfl
  -- the session dies, and is not created again in this step
  | disposed hsweeps =>
    refine ⟨hretains, hL.start, hL.opens, (fun hs => by cases hs), ?_⟩
    rintro - ⟨b, hb⟩
    exact absurd hb (hdies hsweeps b)

/-- Nothing of a session is submitted while it does not exist. -/
theorem LedgerStep.unborn (h : LedgerStep A i k L L') (hi : ∀ b, ¬ i.creates k b) (hL : L.Balanced)
    (hnone : L.session = none) :
    L'.session = none ∧ ∃ new, L'.log = L.log ++ new ∧ ∀ sent ∈ new, sent.msg.sessionKey? ≠ some k := by
  have hpre : L.preamble = none := by
    rw [← Option.not_isSome_iff_eq_none, hL.preamble_isSome, hnone]
    exact Bool.false_ne_true
  have hquiet : ∃ new, L.log = L.log ++ new ∧ ∀ sent ∈ new, sent.msg.sessionKey? ≠ some k :=
    ⟨[], by simp, by simp⟩
  cases h with
  | @submitted sent hkey => exact ⟨hnone, [sent], rfl, by simpa using hkey⟩
  | hosted | abandoned | parked | unparked | swept => exact ⟨hnone, hquiet⟩
  | enrolled | unsubscribed | resolved => exact ⟨by rw [hnone]; rfl, hquiet⟩
  | disconnected =>
    refine ⟨?_, hquiet⟩
    simp [Ledger.disconnect, hnone]
  | created _ _ hnew => exact absurd hnew.creates (hi _)
  | openRefused _ hb | opened _ hb =>
    rw [hpre] at hb
    cases hb
  | routed hlive =>
    rw [hnone] at hlive
    cases hlive
  | polled hs | chunkAccepted hs | chunkRefused hs | took _ hs | decoded _ hs | detached _ hs =>
    rw [hnone] at hs
    cases hs
  | disposed => exact ⟨rfl, hquiet⟩

end Steps

/-! ## Lives -/

namespace Engine

section Lives

variable [Crates] {e : Engine RsStrategy Wire} {i : Input RsStrategy} {c : ChannelId} {m : MessageId}
  {k : SessionKey} {p : PeerId} {preamble : Bytes} {n : Nat} {pre life : List (Input RsStrategy)}

/-- After `pre`, the inputs `life` are one life of the session, or the start of one: the first creates
it, with this preamble, and it lives until the last. -/
structure Life (e : Engine RsStrategy Wire) (c : ChannelId) (m : MessageId) (preamble : Bytes)
    (pre life : List (Input RsStrategy)) : Prop where
  unborn : (e.run pre).session? c m = none
  opening : ∃ i rest, life = i :: rest ∧ i.creates (c, m) preamble
  live : ∀ l l', life = l ++ l' → l ≠ [] → l' ≠ [] → ((e.run (pre ++ l)).session? c m).isSome

/-- A step of the life of a session, seen from its ledger. -/
theorem step_retains (h : (e.ledger k).Retains preamble i k) :
    ((e.step i).2.ledger k).Retains preamble .recv k := by
  have hbefore := (beforeDecode_ledger (A := .none) i e k False.elim fun _ _ _ _ _ _ => trivial).induct
    (fun hstep hL => hstep.retains False.elim hL) h
  exact (afterDecode_ledger i e k).induct (fun hstep hL => hstep.retains (fun _ _ => id) hL)
    ⟨hbefore.balanced, hbefore.kept, fun _ _ => False.elim⟩

/-- A step in the ledger of one session keeps its window, unless the peer is gone. -/
theorem step_window (h : (e.ledger k).Window p preamble n i k)
    (hstays : i ≠ .event (.peerDisconnected p)) :
    ((e.step i).2.ledger k).Window p preamble n .recv k := by
  have hbefore := (beforeDecode_ledger (A := .none) i e k False.elim fun _ _ _ _ _ _ => trivial).induct
    (fun hstep hL => hstep.window hstays False.elim hL) h
  exact (afterDecode_ledger i e k).induct (fun hstep hL => hstep.window (fun hi => by cases hi) (fun _ _ => id) hL)
    hbefore.settled

/-- A disconnect begins a new window. -/
theorem step_window_disconnected
    (h : (e.ledger k).Retains preamble (.event (.peerDisconnected p)) k) :
    ((e.step (.event (.peerDisconnected p))).2.ledger k).Window p preamble
      (e.step (.event (.peerDisconnected p))).2.net.log.length .recv k := by
  have hlog : (e.step (.event (.peerDisconnected p))).2.net = e.net :=
    (maybeRunCleanup_frame (e.handlePeerDisconnected p)).1
  have hstart : ((e.handlePeerDisconnected p).ledger k).Window p preamble e.net.log.length .recv k := by
    rw [disconnected_ledger]
    have hretains := LedgerStep.retains (A := handling .none) (.disconnected rfl) (fun _ _ => id) h
    refine ⟨⟨hretains.balanced, hretains.kept, fun _ _ => False.elim⟩, Nat.le_refl _, ?_, fun _ => ?_, ?_⟩
    · simp [Ledger.disconnect, ledger, OpenedFirst.nil]
    · simp only [Ledger.disconnect, ledger]
      cases e.openedTo[k]? <;> simp
    · rintro - ⟨_, hb⟩
      exact hb.elim
  rw [hlog]
  exact (afterDecode_ledger (.event (.peerDisconnected p)) e k).induct
    (fun hstep hL => hstep.window (fun hi => by cases hi) (fun _ _ => id) hL) hstart

omit [Crates] in
/-- An input creates a session with one preamble. -/
theorem Input.creates_unique {b b' : Bytes} (h : i.creates k b) (h' : i.creates k b') : b = b' := by
  unfold Input.creates at h h'
  split at h
  case h_1 | h_2 => exact h.2.symm.trans h'.2
  case h_3 => exact h.elim

namespace Life

/-- A life begins with the input that creates the session. -/
theorem single (hnone : (e.run pre).session? c m = none) (hi : i.creates (c, m) preamble) :
    Life e c m preamble pre [i] where
  unborn := hnone
  opening := ⟨i, [], rfl, hi⟩
  live l l' heq hl hl' := by
    rcases List.append_eq_singleton_iff.mp heq.symm with ⟨h, -⟩ | ⟨-, h⟩
    · exact absurd h hl
    · exact absurd h hl'

theorem concat (h : Life e c m preamble pre life)
    (hlive : ((e.run (pre ++ life)).session? c m).isSome) (i : Input RsStrategy) :
    Life e c m preamble pre (life ++ [i]) where
  unborn := h.unborn
  opening := by
    obtain ⟨j, rest, rfl, hj⟩ := h.opening
    exact ⟨j, rest ++ [i], rfl, hj⟩
  live l l' heq hl hl' := by
    rcases List.eq_nil_or_concat l' with rfl | ⟨l'', x, rfl⟩
    · exact absurd rfl hl'
    · rw [List.concat_eq_append, ← List.append_assoc] at heq
      obtain ⟨rfl, -⟩ := List.append_inj' heq rfl
      by_cases hl'' : l'' = []
      · rwa [hl'', List.append_nil] at hlive
      · exact h.live l l'' rfl hl hl''

/-- Before each of its inputs, the life retains the preamble. -/
theorem retains (h : Life e c m preamble pre life)
    (hbalanced : ((e.run pre).ledger (c, m)).Balanced) {l l' : List (Input RsStrategy)}
    {j : Input RsStrategy} (hlife : life = l ++ j :: l') :
    ((e.run (pre ++ l)).ledger (c, m)).Retains preamble j (c, m) := by
  induction l using List.reverseRecOn generalizing j l' with
  | nil =>
    obtain ⟨i, rest, hcons, hi⟩ := h.opening
    obtain ⟨rfl, rfl⟩ : j = i ∧ l' = rest := by simpa using hlife.symm.trans hcons
    have hnone : ((e.run pre).ledger (c, m)).session = none := h.unborn
    have hpre : ¬ ((e.run pre).ledger (c, m)).preamble.isSome := by
      rw [hbalanced.preamble_isSome, hnone]
      exact Bool.false_ne_true
    rw [List.append_nil]
    exact ⟨hbalanced, fun b hb => absurd (by rw [hb]; rfl) hpre, fun _ b hb =>
      Input.creates_unique hb hi⟩
  | append_singleton l j₀ ih =>
    have hlast := step_retains (ih (by simp [hlife] : life = l ++ j₀ :: (j :: l')))
    rw [← run_concat, List.append_assoc] at hlast
    have hlive := h.live (l ++ [j₀]) (j :: l') hlife (by simp) (by simp)
    exact { hlast with unborn := fun hnone => absurd hnone (Option.isSome_iff_ne_none.mp hlive) }

/-- Before each of its inputs since the last disconnect of `p`, what is remembered agrees with what was
accepted. -/
theorem window {l₁ l₂ : List (Input RsStrategy)} (h : Life e c m preamble pre (l₁ ++ l₂))
    (hbalanced : ((e.run pre).ledger (c, m)).Balanced)
    (hstart : l₁ = [] ∨ ∃ l, l₁ = l ++ [.event (.peerDisconnected p)])
    (hstays : .event (.peerDisconnected p) ∉ l₂) {l l' : List (Input RsStrategy)}
    {j : Input RsStrategy} (hl : l₂ = l ++ j :: l') :
    ((e.run (pre ++ l₁ ++ l)).ledger (c, m)).Window p preamble (e.run (pre ++ l₁)).net.log.length j
      (c, m) := by
  induction l using List.reverseRecOn generalizing j l' with
  | nil =>
    rw [List.append_nil]
    -- the window begins with the life of the session, or where the peer was gone
    rcases hstart with rfl | ⟨l₀, rfl⟩
    · have hretains := h.retains hbalanced (by simp [hl] : [] ++ l₂ = [] ++ j :: l')
      rw [List.append_nil] at hretains ⊢
      have hnone : ((e.run pre).ledger (c, m)).session = none := h.unborn
      refine ⟨hretains, Nat.le_refl _, ?_, fun hlive => ?_, fun _ _ => ?_⟩
      · simp [ledger, OpenedFirst.nil]
      · rw [hnone] at hlive
        cases hlive
      · simp [ledger]
    · have hretains := h.retains hbalanced
        (by simp [hl] : _ = l₀ ++ .event (.peerDisconnected p) :: (j :: l'))
      have hwindow := step_window_disconnected hretains
      rw [← run_concat, List.append_assoc] at hwindow
      refine hwindow.next ?_
      exact h.live (l₀ ++ [.event (.peerDisconnected p)]) (j :: l') (by simp [hl]) (by simp) (by simp)
  | append_singleton l j₀ ih =>
    have hlast := step_window (ih (by simp [hl] : l₂ = l ++ j₀ :: (j :: l'))) (by
      rintro rfl
      exact hstays (by simp [hl]))
    rw [← run_concat, List.append_assoc] at hlast
    refine hlast.next ?_
    have hlive := h.live (l₁ ++ (l ++ [j₀])) (j :: l') (by simp [hl]) (by simp) (by simp)
    rwa [← List.append_assoc] at hlive

end Life

/-- Every message that carries data of a session is submitted in one of its lives. -/
def SentInLives (e : Engine RsStrategy Wire) : Prop :=
  ∀ inputs i c m, ∀ sent ∈ (e.run (inputs ++ [i])).net.log.drop (e.run inputs).net.log.length,
    sent.msg.sessionKey? = some (c, m) →
      ∃ pre life preamble, inputs ++ [i] = pre ++ life ∧ Life e c m preamble pre life

/-- In every life of a session, between two disconnects of a peer, the session is opened to it before
any of its data, at most once, and with the preamble it was created with. -/
def OpensFirst (e : Engine RsStrategy Wire) : Prop :=
  ∀ pre l₁ l₂ c m preamble p, Life e c m preamble pre (l₁ ++ l₂) →
    (l₁ = [] ∨ ∃ l, l₁ = l ++ [.event (.peerDisconnected p)]) →
    .event (.peerDisconnected p) ∉ l₂ →
    OpenedFirst (c, m) p preamble
      ((e.run (pre ++ l₁ ++ l₂)).net.log.drop (e.run (pre ++ l₁)).net.log.length)

/-- A step that neither finds nor creates a session submits none of its data. -/
theorem step_unborn (hbalanced : (e.ledger k).Balanced) (hnone : (e.ledger k).session = none)
    (hi : ∀ b, ¬ i.creates k b) :
    ((e.step i).2.ledger k).session = none
      ∧ ∀ sent ∈ (e.step i).2.net.log.drop e.net.log.length, sent.msg.sessionKey? ≠ some k := by
  have hstep := (step_ledger (A := .none) i e k False.elim (fun _ _ _ _ _ _ => trivial) trivial
    trivial).induct (Q := fun L => L.Balanced ∧ L.session = none
      ∧ ∃ new, L.log = e.net.log ++ new ∧ ∀ sent ∈ new, sent.msg.sessionKey? ≠ some k)
    (fun hstep hL => ?_) ⟨hbalanced, hnone, [], by simp [ledger], by simp⟩
  · obtain ⟨-, hsession, new, hlog, hnew⟩ := hstep
    refine ⟨hsession, ?_⟩
    rw [show (e.step i).2.net.log = e.net.log ++ new from hlog, List.drop_left]
    exact hnew
  · obtain ⟨hb, hs, new, hlog, hnew⟩ := hL
    obtain ⟨hs', new', hlog', hnew'⟩ := hstep.unborn hi hb hs
    refine ⟨hstep.balanced hb, hs', new ++ new', by rw [hlog', hlog, List.append_assoc], ?_⟩
    exact fun sent hsent => (List.mem_append.mp hsent).elim (hnew sent) (hnew' sent)

/-- A live session is in one of its lives. -/
theorem life_of_live (hbalanced : ∀ inputs, ((e.run inputs).ledger (c, m)).Balanced)
    (hnone : e.session? c m = none) {inputs : List (Input RsStrategy)}
    (hlive : ((e.run inputs).session? c m).isSome) :
    ∃ pre life preamble, inputs = pre ++ life ∧ Life e c m preamble pre life := by
  induction inputs using List.reverseRecOn with
  | nil =>
    rw [show e.run [] = e from rfl, hnone] at hlive
    cases hlive
  | append_singleton inputs i ih =>
    by_cases hbefore : ((e.run inputs).session? c m).isSome
    · obtain ⟨pre, life, preamble, rfl, hlife⟩ := ih hbefore
      exact ⟨pre, life ++ [i], preamble, List.append_assoc .., hlife.concat hbefore i⟩
    · rw [Option.not_isSome_iff_eq_none] at hbefore
      by_cases hi : ∃ b, i.creates (c, m) b
      · obtain ⟨b, hb⟩ := hi
        exact ⟨inputs, [i], b, rfl, .single hbefore hb⟩
      · have hgone := (step_unborn (i := i) (hbalanced inputs) hbefore fun b hb => hi ⟨b, hb⟩).1
        rw [← run_concat] at hgone
        rw [show (e.run (inputs ++ [i])).session? c m = none from hgone] at hlive
        cases hlive

/-- **Open before data, once**, whatever the events and the answers of the transport. -/
theorem run_opensFirst (localPeer : PeerId) (net : Wire) (delivered : Sink) (config : EngineConfig)
    (clock : Clock) :
    SentInLives (withConfig localPeer net delivered config clock)
    ∧ OpensFirst (withConfig localPeer net delivered config clock) := by
  have hbalanced := run_balanced localPeer net delivered config clock
  refine ⟨fun inputs i c m sent hsent hkey => ?_, fun pre l₁ l₂ c m preamble p hlife hstart hstays => ?_⟩
  · by_cases hbefore : (((withConfig localPeer net delivered config clock).run inputs).session? c m).isSome
    · obtain ⟨pre, life, preamble, rfl, hlife⟩ :=
        life_of_live (fun inputs => hbalanced inputs (c, m)) (by simp [withConfig, session?]) hbefore
      exact ⟨pre, life ++ [i], preamble, List.append_assoc .., hlife.concat hbefore i⟩
    · rw [Option.not_isSome_iff_eq_none] at hbefore
      by_cases hi : ∃ b, i.creates (c, m) b
      · obtain ⟨b, hb⟩ := hi
        exact ⟨inputs, [i], b, rfl, .single hbefore hb⟩
      · rw [run_concat] at hsent
        have hquiet := (step_unborn (i := i) (hbalanced inputs (c, m)) hbefore fun b hb => hi ⟨b, hb⟩).2
        exact absurd hkey (hquiet sent hsent)
  · rcases List.eq_nil_or_concat l₂ with rfl | ⟨l, j, rfl⟩
    · simp [OpenedFirst.nil]
    · rw [List.concat_eq_append] at hlife hstays ⊢
      have hwindow := step_window (hlife.window (hbalanced pre (c, m)) hstart hstays rfl) (by
        rintro rfl
        exact hstays (by simp))
      rw [← run_concat, List.append_assoc _ l] at hwindow
      exact hwindow.opens

end Lives

end Engine

end Ethp2p
