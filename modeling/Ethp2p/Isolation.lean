/-
# Ethp2p.Isolation — what one refused peer costs the others.

The open loop of `publish`, the routing loop and the dispatch loop of a drain round all do one thing
after another for a list of peers (`Task`), and all leave at the first refused `SessionOpen` or
`RoutingUpdate`.  Only a refused chunk lets the loop go on.

Suppose the transport refuses exactly what is addressed to a set `F` of peers.  A task BLOCKS if its
peer is in `F` and it has to open the session or to route.  Two runs of the same tasks, one over that
transport and one over a transport that accepts everything, submit the same to the peers outside `F`
up to the first task that blocks (`doTasks_outside`); from there on the first run submits nothing.
So the peers outside `F` get what they would have got exactly when none of them comes after a
task that blocks.
-/
import Ethp2p.Engine.Sessions
import Ethp2p.Strategy.Rs.OneShard

namespace Ethp2p

open Std

namespace Engine

/-! ## Tasks -/

/-- One thing to do for one peer. -/
inductive Task where
  | opening (peer : PeerId)
  | routing (peer : PeerId) (payload : Bytes)
  | dispatch (d : ChunkDispatch Nat)

/-- The peer it is done for. -/
def Task.peer : Task → PeerId
  | .opening peer | .routing peer _ => peer
  | .dispatch d => d.peer

section Loops

variable [Crates] {N : Type} [Net N]

/-- Do one task. -/
def doTask (c : ChannelId) (m : MessageId) :
    Task → Engine RsStrategy N → Except EngineError Unit × Engine RsStrategy N
  | .opening peer, e => e.ensureSessionOpen c m peer
  | .routing peer payload, e =>
    match e.ensureSessionOpen c m peer with
    | (.error err, e) => (.error err, e)
    | (.ok (), e) => e.send (.routingUpdate peer c m payload)
  | .dispatch d, e =>
    match e.ensureSessionOpen c m d.peer with
    | (.error err, e) => (.error err, e)
    | (.ok (), e) =>
      match e.send (.chunk d.peer c m d.chunkId d.payload d.handle) with
      | (.ok (), e) =>
        (.ok (), { e with pendingSends := e.pendingSends.insert (c, m, d.handle) d.peer })
      | (.error _, e) => (.ok (), e.modifySession c m (·.chunkSent d.peer d.handle false))

/-- Do tasks in turn, stopping at the first error. -/
def doTasks (c : ChannelId) (m : MessageId) :
    List Task → Engine RsStrategy N → Except EngineError Unit × Engine RsStrategy N
  | [], e => (.ok (), e)
  | t :: ts, e =>
    match doTask c m t e with
    | (.error err, e) => (.error err, e)
    | (.ok (), e) => doTasks c m ts e

/-- Tasks in a row stop at the first that fails. -/
theorem doTasks_append (c : ChannelId) (m : MessageId) (ts ts' : List Task)
    (e : Engine RsStrategy N) :
    doTasks c m (ts ++ ts') e = match doTasks c m ts e with
      | (.error err, e) => (.error err, e)
      | (.ok (), e) => doTasks c m ts' e := by
  induction ts generalizing e with
  | nil => rfl
  | cons t ts ih =>
    simp only [List.cons_append, doTasks]
    rcases doTask c m t e with ⟨err | _, e1⟩
    · rfl
    · exact ih e1

/-- The open loop of `publish`. -/
theorem openEach_eq (c : ChannelId) (m : MessageId) (peers : List PeerId)
    (e : Engine RsStrategy N) :
    openEach c m peers e = doTasks c m (peers.map .opening) e := by
  induction peers generalizing e with
  | nil => rfl
  | cons peer peers ih =>
    simp only [openEach, List.map_cons, doTasks, doTask]
    rcases e.ensureSessionOpen c m peer with ⟨err | _, e1⟩
    · rfl
    · exact ih e1

/-- The routing loop of a round. -/
theorem routeEach_eq (c : ChannelId) (m : MessageId) (payload : Bytes) (peers : List PeerId)
    (e : Engine RsStrategy N) :
    routeEach c m payload peers e = doTasks c m (peers.map (.routing · payload)) e := by
  induction peers generalizing e with
  | nil => rfl
  | cons peer peers ih =>
    simp only [routeEach, List.map_cons, doTasks, doTask]
    rcases e.ensureSessionOpen c m peer with ⟨err | _, e1⟩
    · rfl
    · simp only
      rcases e1.send (.routingUpdate peer c m payload) with ⟨err | _, e2⟩
      · rfl
      · exact ih e2

/-- The dispatch loop of a round, its stall flag aside. -/
theorem dispatchEach_eq (c : ChannelId) (m : MessageId) (ds : List (ChunkDispatch Nat))
    (stalled : Bool) (e : Engine RsStrategy N) :
    ((dispatchEach c m ds stalled e).1.isOk, (dispatchEach c m ds stalled e).2)
      = ((doTasks c m (ds.map .dispatch) e).1.isOk, (doTasks c m (ds.map .dispatch) e).2) := by
  induction ds generalizing e stalled with
  | nil => rfl
  | cons d ds ih =>
    simp only [dispatchEach, List.map_cons, doTasks, doTask]
    rcases e.ensureSessionOpen c m d.peer with ⟨err | _, e1⟩
    · rfl
    · simp only
      rcases e1.send (.chunk d.peer c m d.chunkId d.payload d.handle) with ⟨err | _, e2⟩
      · exact ih true _
      · exact ih stalled _

/-! ## The tasks of a round -/

/-- The state after the poll of a round. -/
def polled (e : Engine RsStrategy N) (c : ChannelId) (m : MessageId) : Engine RsStrategy N :=
  match e.session? c m with
  | none => e
  | some s => e.modifySession c m fun _ => s.poll.2

/-- The tasks of a round: the routing update of the poll to every subscriber, and its dispatches. -/
def roundTasks (e : Engine RsStrategy N) (c : ChannelId) (m : MessageId) : List Task :=
  match e.session? c m with
  | none => []
  | some s =>
    (match s.poll.1.routing with
      | some routing => (e.subscribersOf c).map (.routing · routing.asBytes)
      | none => []) ++ s.poll.1.dispatches.map .dispatch

/-- **A round does its tasks**, and fails exactly if one of them does. -/
theorem drainRound_eq (e : Engine RsStrategy N) (c : ChannelId) (m : MessageId) :
    (e.drainRound c m).2 = (doTasks c m (e.roundTasks c m) (e.polled c m)).2
      ∧ ((∃ err, (e.drainRound c m).1 = some (.error err))
        ↔ (doTasks c m (e.roundTasks c m) (e.polled c m)).1.isOk = false) := by
  unfold drainRound roundTasks polled
  cases hs : e.session? c m with
  | none => simp [doTasks, Except.isOk, Except.toBool]
  | some s =>
    have hroute : routeWork c m s.poll.1.routing (e.modifySession c m fun _ => s.poll.2)
        = doTasks c m (match s.poll.1.routing with
            | some routing => (e.subscribersOf c).map (.routing · routing.asBytes)
            | none => []) (e.modifySession c m fun _ => s.poll.2) := by
      cases s.poll.1.routing with
      | none => rfl
      | some routing =>
        simp only [routeWork, routeEach_eq, subscribersOf_modifySession]
    simp only
    split
    -- there is nothing to route and nothing to send: the round has no tasks
    case isTrue hidle =>
      simp only [Bool.and_eq_true, Option.isNone_iff_eq_none, List.isEmpty_iff] at hidle
      simp [hidle.1, hidle.2, doTasks, Except.isOk, Except.toBool]
    case isFalse =>
      -- the routing tasks come first, and the batch is reached if none of them fails
      rw [doTasks_append, ← hroute]
      rcases routeWork c m s.poll.1.routing (e.modifySession c m fun _ => s.poll.2) with
        ⟨err | _, e1⟩
      · simp [Except.isOk, Except.toBool]
      · have hdispatch := dispatchEach_eq c m s.poll.1.dispatches false e1
        simp only [Prod.mk.injEq] at hdispatch ⊢
        rcases hd : dispatchEach c m s.poll.1.dispatches false e1 with ⟨err | stalled, e2⟩ <;>
          rw [hd] at hdispatch
        · refine ⟨hdispatch.2, ?_⟩
          rw [← hdispatch.1]
          simp [Except.isOk, Except.toBool]
        · cases stalled <;> refine ⟨hdispatch.2, ?_⟩ <;> rw [← hdispatch.1] <;>
            simp [Except.isOk, Except.toBool]

end Loops

/-! ## A transport that refuses a set of peers -/

section Fails

variable {F : PeerId → Bool} {e e' e'' : Engine RsStrategy Wire} {c : ChannelId} {m : MessageId}

/-- From now on the transport refuses exactly what is addressed to the peers in `F`. -/
def Fails (F : PeerId → Bool) (e : Engine RsStrategy Wire) : Prop :=
  ∀ log msg, e.net.log <+: log → (e.net.answer log msg).isOk = !msg.destPeer.any F

/-- The same transport, with more submitted. -/
def Extends (e e' : Engine RsStrategy Wire) : Prop :=
  e'.net.answer = e.net.answer ∧ e.net.log <+: e'.net.log

/-- The transport is as it was. -/
theorem Extends.refl (h : e'.net = e.net) : Extends e e' := by
  unfold Extends
  rw [h]
  exact ⟨rfl, List.prefix_rfl⟩

theorem Extends.trans (h : Extends e e') (h' : Extends e' e'') : Extends e e'' :=
  ⟨h'.1.trans h.1, h.2.trans h'.2⟩

theorem Extends.sent {msg : NetSend} (h : e'.net = (Net.send e.net msg).2) : Extends e e' := by
  unfold Extends
  rw [h]
  exact ⟨rfl, List.prefix_append _ _⟩

/-- The transport fails the same peers after more submissions. -/
theorem Fails.extends (h : Fails F e) (hext : Extends e e') : Fails F e' := by
  intro log msg hlog
  rw [hext.1]
  exact h log msg (hext.2.trans hlog)

/-- The transport accepts everything. -/
def accepting (e : Engine RsStrategy Wire) : Engine RsStrategy Wire :=
  { e with net := { e.net with answer := fun _ _ => .ok () } }

/-- A transport that accepts everything fails nobody. -/
theorem accepting_fails (e : Engine RsStrategy Wire) : Fails (fun _ => false) e.accepting := by
  intro log msg _
  simp [accepting, Except.isOk, Except.toBool]

/-- Everything submitted so far. -/
def messages (e : Engine RsStrategy Wire) : List NetSend := e.net.log.map Sent.msg

/-- The session was opened to the peer. -/
def isOpenTo (e : Engine RsStrategy Wire) (c : ChannelId) (m : MessageId) (p : PeerId) : Bool :=
  e.openedTo[(c, m)]?.any (p ∈ ·)

/-- The session has yet to be opened to the peer. -/
def needsOpen (e : Engine RsStrategy Wire) (c : ChannelId) (m : MessageId) (p : PeerId) : Bool :=
  !e.isOpenTo c m p && e.sessionPreambles[(c, m)]?.isSome

/-- The `SessionOpen` that opening the session to the peer submits, if any. -/
def opens (e : Engine RsStrategy Wire) (c : ChannelId) (m : MessageId) (p : PeerId) :
    List NetSend :=
  if e.needsOpen c m p then [.sessionOpen p c m (e.sessionPreambles.getD (c, m) []) []] else []

/-- What a task submits after the session is opened. -/
def Task.body (c : ChannelId) (m : MessageId) : Task → List NetSend
  | .opening _ => []
  | .routing peer payload => [.routingUpdate peer c m payload]
  | .dispatch d => [.chunk d.peer c m d.chunkId d.payload d.handle]

/-- The task fails if the transport refuses the peers in `F`. -/
def blocks (F : PeerId → Bool) (e : Engine RsStrategy Wire) (c : ChannelId) (m : MessageId) :
    Task → Bool
  | .routing peer _ => F peer
  | t => F t.peer && e.needsOpen c m t.peer

theorem messages_sent {msg : NetSend} (h : e'.net = (Net.send e.net msg).2) :
    e'.messages = e.messages ++ [msg] := by
  unfold messages
  rw [h]
  exact List.map_append

/-- Sending over a transport that refuses `F`. -/
theorem Fails.send (hF : Fails F e) (msg : NetSend) :
    ∃ r, e.send msg = (r, { e with net := (Net.send e.net msg).2 })
      ∧ r.isOk = !msg.destPeer.any F := by
  refine ⟨(Net.send e.net msg).1.mapError .net, send_eq e msg, ?_⟩
  rw [← hF e.net.log msg List.prefix_rfl]
  show _ = (Net.send e.net msg).1.isOk
  rcases (Net.send e.net msg).1 with err | _ <;> rfl

theorem any_mem_insert (o : Option (BTreeSet PeerId)) (p q : PeerId) :
    (some ((o.getD ∅).insert p)).any (q ∈ ·) ↔ o.any (q ∈ ·) ∨ q = p := by
  simp only [Option.any_some, decide_eq_true_eq, BTreeSet.mem_insert_iff]
  cases o with
  | none => simp [eq_comm]
  | some s => simp [eq_comm, or_comm]

/-- Opening a session over a transport that refuses `F`. -/
theorem Fails.ensureSessionOpen (hF : Fails F e) (c : ChannelId) (m : MessageId) (p : PeerId) :
    ∃ r net openedTo, e.ensureSessionOpen c m p = (r, { e with net, openedTo })
      ∧ Extends e { e with net, openedTo }
      ∧ r.isOk = !(F p && e.needsOpen c m p)
      ∧ messages { e with net, openedTo } = e.messages ++ e.opens c m p
      ∧ ∀ q, isOpenTo { e with net, openedTo } c m q
        ↔ e.isOpenTo c m q ∨ (q = p ∧ e.needsOpen c m p ∧ F p = false) := by
  unfold Engine.ensureSessionOpen opens needsOpen isOpenTo
  by_cases hopened : e.openedTo[(c, m)]?.any (p ∈ ·)
  · refine ⟨.ok (), e.net, e.openedTo, by simp [hopened], .refl rfl, by simp [hopened]; rfl,
      by simp [hopened], by simp [hopened]⟩
  · cases hpre : e.sessionPreambles[(c, m)]? with
    | none =>
      -- a session without a preamble is opened nowhere
      exact ⟨.ok (), e.net, e.openedTo, by simp [hopened], .refl rfl, by simp; rfl, by simp,
        by simp⟩
    | some preamble =>
      obtain ⟨r, hsend, hr⟩ := hF.send (.sessionOpen p c m preamble [])
      -- a `SessionOpen` is due: it is refused exactly if the peer is failed
      have hget : e.sessionPreambles.getD (c, m) [] = preamble := by
        rw [ExtTreeMap.getD_eq_getD_getElem?, hpre, Option.getD_some]
      have hmsgs : ∀ openedTo, messages { e with
          net := (Net.send e.net (.sessionOpen p c m preamble [])).2, openedTo }
          = e.messages ++ [.sessionOpen p c m preamble []] := fun openedTo => messages_sent rfl
      simp only [hopened, hsend, hget]
      rcases r with err | _
      · have hp : F p = true := by simpa [Except.isOk, Except.toBool, NetSend.destPeer] using hr
        exact ⟨.error err, _, e.openedTo, rfl, .sent rfl, by simp [hp]; rfl, by simpa using hmsgs _,
          by simp [hp]⟩
      · have hp : F p = false := by simpa [Except.isOk, Except.toBool, NetSend.destPeer] using hr
        refine ⟨.ok (), _, _, rfl, .sent rfl, by simp [hp]; rfl, by simpa using hmsgs _,
          fun q => ?_⟩
        rw [BTreeMap.get_alter, if_pos rfl, any_mem_insert]
        simp [hp]

variable [Crates]

/-- What doing a task over a transport that refuses `F` comes to. -/
structure TaskDone (F : PeerId → Bool) (e : Engine RsStrategy Wire) (c : ChannelId) (m : MessageId)
    (t : Task) (r : Except EngineError Unit × Engine RsStrategy Wire) : Prop where
  extends_ : Extends e r.2
  preambles : r.2.sessionPreambles = e.sessionPreambles
  isOk : r.1.isOk = !blocks F e c m t
  submits : blocks F e c m t = false →
    r.2.messages = e.messages ++ (e.opens c m t.peer ++ t.body c m)
  addressed : ∃ sent, r.2.messages = e.messages ++ sent
    ∧ ∀ msg ∈ sent, msg.destPeer = some t.peer
  isOpenTo : ∀ q, r.2.isOpenTo c m q
    ↔ e.isOpenTo c m q ∨ (q = t.peer ∧ e.needsOpen c m q ∧ F q = false)

omit [Crates] in
/-- A session is opened at the peer it is opened to. -/
theorem destPeer_opens {p : PeerId} {msg : NetSend} (h : msg ∈ e.opens c m p) :
    msg.destPeer = some p := by
  unfold opens at h
  split at h
  · rw [List.mem_singleton.mp h]
    rfl
  · cases h

/-- **One task.**  It sends what is due to its peer, and fails if and only if the peer is failed and something
is due that is no chunk. -/
theorem Fails.doTask (hF : Fails F e) (c : ChannelId) (m : MessageId) (t : Task) :
    TaskDone F e c m t (doTask c m t e) := by
  obtain ⟨r, net, openedTo, hensure, hext, hok, hmsgs, hopen⟩ := hF.ensureSessionOpen c m t.peer
  have hopen' : ∀ q, Engine.isOpenTo { e with net, openedTo } c m q
      ↔ e.isOpenTo c m q ∨ (q = t.peer ∧ e.needsOpen c m q ∧ F q = false) := fun q => by
    rw [hopen q]
    refine or_congr_right (and_congr_right ?_)
    rintro rfl
    rfl
  have hbody : ∀ (e₂ : Engine RsStrategy Wire) msg, e₂.net = (Net.send net msg).2 →
      e₂.messages = e.messages ++ (e.opens c m t.peer ++ [msg]) := fun e₂ msg he₂ => by
    rw [messages_sent (e := { e with net, openedTo }) he₂, hmsgs, List.append_assoc]
  have haddressed : ∀ msg, msg.destPeer = some t.peer →
      ∀ msg' ∈ e.opens c m t.peer ++ [msg], msg'.destPeer = some t.peer := by
    intro msg hdest msg' hmsg'
    rcases List.mem_append.mp hmsg' with hopened | hbody
    · exact destPeer_opens hopened
    · rwa [List.mem_singleton.mp hbody]
  cases t with
  | opening p =>
    simp only [Engine.doTask, Task.peer] at hensure hmsgs hok hopen' ⊢
    rw [hensure]
    exact ⟨hext, rfl, hok, fun _ => by simp [hmsgs, Task.body, Task.peer],
      ⟨_, hmsgs, fun msg hmsg => destPeer_opens hmsg⟩, hopen'⟩
  | routing p payload =>
    simp only [Engine.doTask, Task.peer] at hensure hmsgs hok hopen' hbody haddressed ⊢
    rw [hensure]
    rcases r with err | _
    · have hp : F p = true := by
        have hblocked : (F p && e.needsOpen c m p) = true := by
          simpa [Except.isOk, Except.toBool] using hok
        exact ((Bool.and_eq_true _ _).mp hblocked).1
      exact ⟨hext, rfl, by simp [blocks, hp]; rfl, by simp [blocks, hp],
        ⟨_, hmsgs, fun msg hmsg => destPeer_opens hmsg⟩, hopen'⟩
    · obtain ⟨r₂, hsend, hr₂⟩ := (hF.extends hext).send (.routingUpdate p c m payload)
      simp only [hsend]
      exact ⟨hext.trans (.sent rfl), rfl, hr₂, fun _ => hbody _ _ rfl,
        ⟨_, hbody _ _ rfl, haddressed _ rfl⟩, hopen'⟩
  | dispatch d =>
    simp only [Engine.doTask, Task.peer] at hensure hmsgs hok hopen' hbody haddressed ⊢
    rw [hensure]
    rcases r with err | _
    · have hblocked : (F d.peer && e.needsOpen c m d.peer) = true := by
        simpa [Except.isOk, Except.toBool] using hok
      exact ⟨hext, rfl, by simp [blocks, Task.peer, hblocked]; rfl, by
        simp [blocks, Task.peer, hblocked], ⟨_, hmsgs, fun msg hmsg => destPeer_opens hmsg⟩, hopen'⟩
    · obtain ⟨r₂, hsend, -⟩ := (hF.extends hext).send
        (.chunk d.peer c m d.chunkId d.payload d.handle)
      simp only [hsend]
      -- a refused chunk is refunded; the task is done either way
      rcases r₂ with err | _ <;>
        exact ⟨hext.trans (.sent rfl), rfl, hok, fun _ => hbody _ _ rfl,
          ⟨_, hbody _ _ rfl, haddressed _ rfl⟩, hopen'⟩

omit [Crates] in
/-- Doing a task changes nothing about what blocks: it opens the session to no peer in `F`. -/
theorem TaskDone.blocks_eq {t : Task} {r : Except EngineError Unit × Engine RsStrategy Wire}
    (h : TaskDone F e c m t r) (t' : Task) : blocks F r.2 c m t' = blocks F e c m t' := by
  have hneeds : ∀ q, (F q && r.2.needsOpen c m q) = (F q && e.needsOpen c m q) := by
    intro q
    cases hq : F q with
    | false => rfl
    | true =>
      have hopen : r.2.isOpenTo c m q = e.isOpenTo c m q := by
        rw [Bool.eq_iff_iff, h.isOpenTo q]
        simp [hq]
      rw [needsOpen, needsOpen, hopen, h.preambles]
  cases t' with
  | routing => rfl
  | opening p => exact hneeds p
  | dispatch d => exact hneeds d.peer

/-- The tasks are done exactly if none of them blocks. -/
theorem Fails.doTasks_isOk (hF : Fails F e) (ts : List Task) :
    (doTasks c m ts e).1.isOk = ts.all (!blocks F e c m ·) := by
  induction ts generalizing e with
  | nil => rfl
  | cons t ts ih =>
    have hdone := hF.doTask c m t
    rw [doTasks, List.all_cons]
    rcases ht : Engine.doTask c m t e with ⟨err | _, e₁⟩ <;> rw [ht] at hdone
    · have hblocks := hdone.isOk
      simp only [Except.isOk, Except.toBool] at hblocks ⊢
      simp [← hblocks]
    · have hblocks := hdone.isOk
      simp only [Except.isOk, Except.toBool] at hblocks
      rw [← hblocks, Bool.true_and]
      refine (ih (hF.extends hdone.extends_)).trans ?_
      simp only [hdone.blocks_eq]

/-! ## Two runs of the same tasks -/

/-- What was submitted to peers outside `F`. -/
def outside (F : PeerId → Bool) (e : Engine RsStrategy Wire) : List NetSend :=
  e.messages.filter fun msg => !msg.destPeer.any F

/-- No task outside `F` comes after one that blocks. -/
def NoneCutOff (F : PeerId → Bool) (e : Engine RsStrategy Wire) (c : ChannelId) (m : MessageId)
    (ts : List Task) : Prop :=
  ∀ t ∈ ts.dropWhile (!blocks F e c m ·), F t.peer = true

instance (F : PeerId → Bool) (e : Engine RsStrategy Wire) (c : ChannelId) (m : MessageId)
    (ts : List Task) : Decidable (NoneCutOff F e c m ts) :=
  inferInstanceAs (Decidable (∀ t ∈ ts.dropWhile (!blocks F e c m ·), F t.peer = true))

/-- The two runs have submitted the same outside `F` and go on alike. -/
structure Coupled (F : PeerId → Bool) (c : ChannelId) (m : MessageId)
    (e e' : Engine RsStrategy Wire) : Prop where
  outside_eq : outside F e' = outside F e
  preambles_eq : e'.sessionPreambles = e.sessionPreambles
  isOpenTo_eq : ∀ q, F q = false → e'.isOpenTo c m q = e.isOpenTo c m q
  refuses : Fails F e
  accepts : Fails (fun _ => false) e'

omit [Crates] in
/-- What is sent to one peer is all outside of `F`, or nothing is. -/
theorem filter_outside_of_mem {t : Task} {sent : List NetSend}
    (hsent : ∀ msg ∈ sent, msg.destPeer = some t.peer) :
    (sent.filter fun msg => !msg.destPeer.any F) = if F t.peer then [] else sent := by
  split
  case isTrue hF =>
    refine List.filter_eq_nil_iff.mpr fun msg hmsg => ?_
    simp [hsent msg hmsg, hF]
  case isFalse hF =>
    refine List.filter_eq_self.mpr fun msg hmsg => ?_
    simp [hsent msg hmsg, hF]

omit [Crates] in
/-- Nothing blocks when nothing is refused. -/
theorem blocks_none (e : Engine RsStrategy Wire) (c : ChannelId) (m : MessageId) (t : Task) :
    blocks (fun _ => false) e c m t = false := by
  cases t <;> rfl

omit [Crates] in
/-- What a task that is done submits outside `F`. -/
theorem TaskDone.outside_eq {G : PeerId → Bool} {t : Task}
    {r : Except EngineError Unit × Engine RsStrategy Wire} (h : TaskDone G e c m t r)
    (hblocks : blocks G e c m t = false) :
    outside F r.2 = outside F e ++ if F t.peer then [] else e.opens c m t.peer ++ t.body c m := by
  obtain ⟨sent, hsent, haddressed⟩ := h.addressed
  obtain rfl := List.append_cancel_left (hsent.symm.trans (h.submits hblocks))
  rw [outside, hsent, List.filter_append, filter_outside_of_mem haddressed]
  rfl

omit [Crates] in
/-- What a task that blocks submits outside `F`: nothing. -/
theorem TaskDone.outside_blocked {t : Task}
    {r : Except EngineError Unit × Engine RsStrategy Wire} (h : TaskDone F e c m t r)
    (hF : F t.peer = true) : outside F r.2 = outside F e := by
  obtain ⟨sent, hsent, haddressed⟩ := h.addressed
  rw [outside, hsent, List.filter_append, filter_outside_of_mem haddressed, if_pos hF,
    List.append_nil]
  rfl

omit [Crates] in
/-- Only a failed peer blocks. -/
theorem peer_of_blocks {t : Task} (h : blocks F e c m t = true) : F t.peer = true := by
  cases t with
  | routing => exact h
  | opening | dispatch => exact ((Bool.and_eq_true _ _).mp h).1

/-- Over a transport that accepts everything, every task outside `F` submits something. -/
theorem doTasks_outside_accepting (hnone : Fails (fun _ => false) e) (ts : List Task)
    (hbody : ∀ t ∈ ts, t.body c m ≠ []) :
    ∃ sent, outside F (doTasks c m ts e).2 = outside F e ++ sent
      ∧ (sent = [] ↔ ∀ t ∈ ts, F t.peer = true) := by
  induction ts generalizing e with
  | nil => exact ⟨[], by simp [doTasks], by simp⟩
  | cons t ts ih =>
    have hdone := hnone.doTask c m t
    have hout := hdone.outside_eq (F := F) (blocks_none e c m t)
    have hok := hdone.isOk
    rw [blocks_none] at hok
    rw [doTasks]
    rcases ht : Engine.doTask c m t e with ⟨err | _, e₁⟩ <;> rw [ht] at hdone hout hok
    · cases hok
    · obtain ⟨sent, hsent, hiff⟩ := ih (hnone.extends hdone.extends_) fun t' ht' =>
        hbody t' (List.mem_cons_of_mem t ht')
      refine ⟨_, by rw [hsent, hout, List.append_assoc], ?_⟩
      have hne := hbody t List.mem_cons_self
      cases hp : F t.peer <;> simp [hp, hiff, hne]

omit [Crates] in
/-- A task that does not block keeps the two runs coupled. -/
theorem Coupled.step {t : Task} {r r' : Except EngineError Unit × Engine RsStrategy Wire}
    (h : Coupled F c m e e') (hdone : TaskDone F e c m t r)
    (hdone' : TaskDone (fun _ => false) e' c m t r') (hblocks : blocks F e c m t = false) :
    Coupled F c m r.2 r'.2 := by
  have hneeds : ∀ q, F q = false → e'.needsOpen c m q = e.needsOpen c m q := fun q hq => by
    rw [needsOpen, needsOpen, h.isOpenTo_eq q hq, h.preambles_eq]
  refine ⟨?_, ?_, fun q hq => ?_, h.refuses.extends hdone.extends_,
    h.accepts.extends hdone'.extends_⟩
  · rw [hdone.outside_eq hblocks, hdone'.outside_eq (blocks_none e' c m t), h.outside_eq]
    split
    · rfl
    case isFalse hp =>
      rw [opens, opens, hneeds t.peer (by simpa using hp), h.preambles_eq]
  · rw [hdone'.preambles, hdone.preambles, h.preambles_eq]
  · rw [Bool.eq_iff_iff, hdone.isOpenTo, hdone'.isOpenTo, h.isOpenTo_eq q hq, hneeds q hq]
    simp [hq]

/-- **Up to the first task that blocks** both runs submit the same outside `F`; what the second one
submits from there on is what the peers outside `F` miss. -/
theorem doTasks_outside (h : Coupled F c m e e') (ts : List Task)
    (hbody : ∀ t ∈ ts, t.body c m ≠ []) :
    ∃ sent, outside F (doTasks c m ts e').2 = outside F (doTasks c m ts e).2 ++ sent
      ∧ (sent = [] ↔ NoneCutOff F e c m ts) := by
  induction ts generalizing e e' with
  | nil => exact ⟨[], by simp [doTasks, h.outside_eq], by simp [NoneCutOff]⟩
  | cons t ts ih =>
    have hdone := h.refuses.doTask c m t
    have hdone' := h.accepts.doTask c m t
    have hok := hdone.isOk
    have hok' := hdone'.isOk
    cases hblocks : blocks F e c m t with
    | true =>
      -- the first run stops here
      obtain ⟨sent, hsent, hiff⟩ := doTasks_outside_accepting (F := F) h.accepts (t :: ts) hbody
      refine ⟨sent, ?_, by simpa [NoneCutOff, hblocks] using hiff⟩
      rw [hsent, h.outside_eq]
      rw [hblocks] at hok
      have hout := hdone.outside_blocked (peer_of_blocks hblocks)
      conv => rhs; rw [doTasks]
      rcases ht : Engine.doTask c m t e with ⟨err | _, e₁⟩ <;> rw [ht] at hok hout
      · rw [hout]
      · cases hok
    | false =>
      have hcoupled := h.step hdone hdone' hblocks
      have hsame := hdone.blocks_eq
      rw [hblocks] at hok
      rw [blocks_none] at hok'
      rw [doTasks, doTasks]
      rcases ht : Engine.doTask c m t e with ⟨err | _, e₁⟩ <;> rw [ht] at hok hcoupled hsame
      · cases hok
      rcases ht' : Engine.doTask c m t e' with ⟨err | _, e₁'⟩ <;> rw [ht'] at hok' hcoupled
      · cases hok'
      obtain ⟨sent, hsent, hiff⟩ := ih hcoupled fun t' ht' => hbody t' (List.mem_cons_of_mem t ht')
      refine ⟨sent, hsent, hiff.trans ?_⟩
      simp only [NoneCutOff, hsame, List.dropWhile_cons, hblocks, Bool.not_false, if_true]

theorem polled_extends (e : Engine RsStrategy Wire) (c : ChannelId) (m : MessageId) :
    Extends e (e.polled c m) := by
  unfold polled
  split <;> exact .refl rfl

/-- A poll changes nothing about what blocks. -/
theorem blocks_polled (e : Engine RsStrategy Wire) (c : ChannelId) (m : MessageId) (t : Task) :
    blocks F (e.polled c m) c m t = blocks F e c m t := by
  unfold polled
  split
  · rfl
  · cases t <;> rfl

/-- What a round submits outside `F` is what it submits when nothing is refused. -/
def RoundIsolated (F : PeerId → Bool) (e : Engine RsStrategy Wire) (c : ChannelId) (m : MessageId) :
    Prop :=
  outside F (e.drainRound c m).2 = outside F (e.accepting.drainRound c m).2

/-- **A round isolates the peers outside `F`** exactly if none of its tasks for them comes after a
task that blocks. -/
theorem roundIsolated_iff (hF : Fails F e) (c : ChannelId) (m : MessageId) :
    RoundIsolated F e c m ↔ NoneCutOff F e c m (e.roundTasks c m) := by
  have htasks : e.accepting.roundTasks c m = e.roundTasks c m := rfl
  have haccepting : e.accepting.polled c m = (e.polled c m).accepting := by
    unfold polled
    show (match e.session? c m with | none => _ | some s => _) = _
    cases e.session? c m <;> rfl
  have hcoupled : Coupled F c m (e.polled c m) (e.polled c m).accepting :=
    ⟨rfl, rfl, fun _ _ => rfl, hF.extends (e.polled_extends c m), accepting_fails _⟩
  have hbody : ∀ t ∈ e.roundTasks c m, t.body c m ≠ [] := by
    unfold roundTasks
    intro t ht
    split at ht
    · cases ht
    · rcases List.mem_append.mp ht with hroute | hdispatch
      · split at hroute
        · obtain ⟨p, -, rfl⟩ := List.mem_map.mp hroute
          simp [Task.body]
        · cases hroute
      · obtain ⟨d, -, rfl⟩ := List.mem_map.mp hdispatch
        simp [Task.body]
  obtain ⟨sent, hsent, hiff⟩ := doTasks_outside hcoupled (e.roundTasks c m) hbody
  rw [RoundIsolated, (drainRound_eq e c m).1, (drainRound_eq e.accepting c m).1, htasks, haccepting,
    hsent, eq_comm, List.append_right_eq_self, hiff]
  simp only [NoneCutOff, blocks_polled]

/-! ## Drains -/

theorem DrainStepsIf.extends {P : Session RsStrategy → Prop} {e e' : Engine RsStrategy Wire}
    (h : DrainStepsIf P c m e e') : Extends e e' := by
  induction h with
  | refl => exact .refl rfl
  | tail _ hstep ih =>
    refine ih.trans ?_
    cases hstep with
    | polled => exact .refl rfl
    | openRefused _ _ hsend | opened _ _ hsend | routed hsend | chunkAccepted _ hsend
    | chunkRefused _ hsend => exact .sent (congrArg Prod.snd hsend).symm

/-- No task of the round blocks. -/
def RoundUnblocked (F : PeerId → Bool) (e : Engine RsStrategy Wire) (k : SessionKey) : Prop :=
  ∀ t ∈ e.roundTasks k.1 k.2, blocks F e k.1 k.2 t = false

/-- No task of any round of the drain of session `k` blocks. -/
def DrainUnblocked (F : PeerId → Bool) (e : Engine RsStrategy Wire) (k : SessionKey) : Prop :=
  ∀ e' ∈ drainRounds k.1 k.2 (e.drainFuel k.1 k.2) e, RoundUnblocked F e' k

instance (F : PeerId → Bool) (e : Engine RsStrategy Wire) (k : SessionKey) :
    Decidable (RoundUnblocked F e k) :=
  inferInstanceAs (Decidable (∀ t ∈ e.roundTasks k.1 k.2, blocks F e k.1 k.2 t = false))

instance (F : PeerId → Bool) (e : Engine RsStrategy Wire) (k : SessionKey) :
    Decidable (DrainUnblocked F e k) :=
  inferInstanceAs (Decidable (∀ e' ∈ drainRounds k.1 k.2 (e.drainFuel k.1 k.2) e,
    RoundUnblocked F e' k))

/-- A round fails exactly if one of its tasks blocks. -/
theorem drainRound_error_iff (hF : Fails F e) (k : SessionKey) :
    (∃ err, (e.drainRound k.1 k.2).1 = some (.error err)) ↔ ¬ RoundUnblocked F e k := by
  rw [(drainRound_eq e k.1 k.2).2, (hF.extends (e.polled_extends k.1 k.2)).doTasks_isOk,
    ← Bool.not_eq_true, List.all_eq_true]
  simp only [blocks_polled, Bool.not_eq_true', RoundUnblocked]

/-- A drain fails exactly if a task of one of its rounds blocks. -/
theorem drainLoop_isOk_iff (k : SessionKey) (fuel : Nat) (e : Engine RsStrategy Wire)
    (hF : Fails F e) :
    ((drainLoop k.1 k.2 fuel e).1.getD (.ok ())).isOk
      ↔ ∀ e' ∈ drainRounds k.1 k.2 fuel e, RoundUnblocked F e' k := by
  induction fuel generalizing e with
  | zero => simp [drainLoop, drainRounds, Except.isOk, Except.toBool]
  | succ fuel ih =>
    have hround := drainRound_error_iff hF k
    have hext := (drainRound_steps e k.1 k.2).extends
    unfold drainLoop drainRounds
    rcases hr : e.drainRound k.1 k.2 with ⟨_ | (err | _), e₁⟩ <;> rw [hr] at hround hext
    · have hunblocked : RoundUnblocked F e k := by simpa using hround
      simp only [List.forall_mem_cons, hunblocked, true_and]
      exact ih e₁ (hF.extends hext)
    · have hblocked : ¬ RoundUnblocked F e k := by simpa using hround
      simp [hblocked, Except.isOk, Except.toBool]
    · have hunblocked : RoundUnblocked F e k := by simpa using hround
      simp [hunblocked, Except.isOk, Except.toBool]

/-- A drain succeeds if and only if no failed peer blocks it. -/
theorem drainSession_isOk_iff (hF : Fails F e) (k : SessionKey) :
    (e.drainSession k.1 k.2).1.isOk ↔ DrainUnblocked F e k :=
  drainLoop_isOk_iff k _ e hF

/-- All sessions are drained exactly if no drain but the last one's blocks. -/
theorem drainEachCalls_eq_iff (c : ChannelId) (ms : List MessageId) (hnodup : ms.Nodup)
    (e : Engine RsStrategy Wire) (hF : Fails F e) :
    (drainEachCalls c ms e).map (·.2.2) = ms
      ↔ ∀ call ∈ drainEachCalls c ms e, ms.getLast? ≠ some call.2.2 →
        DrainUnblocked F call.1 call.2 := by
  induction ms generalizing e with
  | nil => simp [drainEachCalls]
  | cons m ms ih =>
    have hdrain := drainSession_isOk_iff hF (c, m)
    have hext := (drainSession_steps e c m).extends
    rw [List.nodup_cons] at hnodup
    have hrest := ih hnodup.2 (e.drainSession c m).2 (hF.extends hext)
    unfold drainEachCalls
    cases ms with
    | nil => rcases e.drainSession c m with ⟨err | _, e₁⟩ <;> simp [drainEachCalls]
    | cons m' ms =>
      have hlast : (m :: m' :: ms).getLast? = (m' :: ms).getLast? := List.getLast?_cons_cons
      have hne : (m' :: ms).getLast? ≠ some m := fun h =>
        hnodup.1 (List.mem_of_getLast? h)
      rw [hlast]
      rcases hr : e.drainSession c m with ⟨err | _, e₁⟩ <;> rw [hr] at hdrain hrest
      · have hblocked : ¬ DrainUnblocked F e (c, m) := by
          simpa [Except.isOk, Except.toBool] using hdrain
        simp [hblocked, hne]
      · have hunblocked : DrainUnblocked F e (c, m) := by
          simpa [Except.isOk, Except.toBool] using hdrain
        simp only [List.map_cons, List.cons.injEq, true_and, List.forall_mem_cons, hunblocked,
          implies_true]
        exact hrest

/-! ## Opening a new session -/

/-- What the tasks before the first one that blocks submit, and to whom. -/
theorem doTasks_opened (hF : Fails F e) {preamble : Bytes}
    (hpre : e.sessionPreambles[(c, m)]? = some preamble) (ts : List Task) :
    ∃ sent, (doTasks c m ts e).2.messages = e.messages ++ sent
      ∧ (∀ t ∈ ts.takeWhile (!blocks F e c m ·), e.isOpenTo c m t.peer = false →
        .sessionOpen t.peer c m preamble [] ∈ sent)
      ∧ ∀ msg ∈ sent, ∀ p, msg.destPeer = some p → F p = false →
        ∃ t ∈ ts.takeWhile (!blocks F e c m ·), t.peer = p := by
  induction ts generalizing e with
  | nil => exact ⟨[], by simp [doTasks], by simp, by simp⟩
  | cons t ts ih =>
    have hdone := hF.doTask c m t
    obtain ⟨sent, hsent, haddressed⟩ := hdone.addressed
    have hok := hdone.isOk
    have hsame := hdone.blocks_eq
    rw [doTasks]
    rw [List.takeWhile_cons]
    cases hblocks : blocks F e c m t with
    -- this task fails, and the ones behind it are not reached
    | true =>
      rw [hblocks] at hok
      rcases ht : Engine.doTask c m t e with ⟨err | _, e₁⟩ <;> rw [ht] at hok hsent
      · refine ⟨sent, hsent, by simp, fun msg hmsg p hp hout => ?_⟩
        obtain rfl := Option.some.inj ((haddressed msg hmsg).symm.trans hp)
        simp [peer_of_blocks hblocks] at hout
      · cases hok
    -- this task is done, and the ones behind it are what they were
    | false =>
      have hsubmits := hdone.submits hblocks
      obtain rfl := List.append_cancel_left (hsent.symm.trans hsubmits)
      rw [hblocks] at hok
      have hopen := hdone.isOpenTo
      have hpre₁ := hdone.preambles
      have hext := hdone.extends_
      rcases ht : Engine.doTask c m t e with ⟨err | _, e₁⟩ <;>
        rw [ht] at hok hsent hsame hopen hpre₁ hext
      · cases hok
      have hopens : e.isOpenTo c m t.peer = false →
          .sessionOpen t.peer c m preamble [] ∈ e.opens c m t.peer := fun hclosed => by
        simp [opens, needsOpen, hclosed, hpre, ExtTreeMap.getD_eq_getD_getElem?]
      obtain ⟨rest, hrest, hopened, hothers⟩ := ih (hF.extends hext) (hpre₁ ▸ hpre)
      simp only [hsame] at hopened hothers
      refine ⟨_, by rw [hrest, hsent, List.append_assoc], fun t' ht' hclosed => ?_,
        fun msg hmsg p hp hout => ?_⟩
      · simp only [Bool.not_false, if_true, List.mem_cons] at ht'
        by_cases hpeer : t'.peer = t.peer
        · rw [hpeer] at hclosed ⊢
          exact List.mem_append_left _ (List.mem_append_left _ (hopens hclosed))
        · have hlater : t' ∈ ts.takeWhile (!blocks F e c m ·) :=
            ht'.resolve_left fun h => hpeer (congrArg Task.peer h)
          refine List.mem_append_right _ (hopened t' hlater ?_)
          rw [← Bool.not_eq_true, hopen]
          simp [hclosed, hpeer]
      · simp only [Bool.not_false, if_true]
        rcases List.mem_append.mp hmsg with hnow | hlater
        · refine ⟨t, List.mem_cons_self, ?_⟩
          exact Option.some.inj ((haddressed msg hnow).symm.trans hp)
        · obtain ⟨t', ht', hpeer⟩ := hothers msg hlater p hp hout
          exact ⟨t', List.mem_cons_of_mem t ht', hpeer⟩

/-- `publish` submits its `SessionOpen` to every subscriber outside `F`. -/
def PublishOpens (F : PeerId → Bool) (e : Engine RsStrategy Wire) (c : ChannelId) (m : MessageId)
    (strategy : RsStrategy) (preamble : Bytes) : Prop :=
  ∀ p ∈ e.subscribersOf c, F p = false →
    .sessionOpen p c m preamble [] ∈
      ((e.publish c m strategy preamble).2.net.log.drop e.net.log.length).map Sent.msg

omit [Crates] in
/-- A subscriber outside `F` behind one in `F`, in a list without repetitions, is not among those
before it. -/
theorem mem_takeWhile_iff {ps : List PeerId} (hnodup : ps.Nodup) {p : PeerId} (hp : p ∈ ps) :
    p ∈ ps.takeWhile (!F ·) ↔ p ∉ ps.dropWhile (!F ·) := by
  rw [← List.takeWhile_append_dropWhile (p := fun q => !F q) (l := ps)] at hp hnodup
  have hdisjoint := List.disjoint_of_nodup_append hnodup
  constructor
  · exact fun htake hdrop => hdisjoint htake hdrop
  · exact fun hdrop => (List.mem_append.mp hp).resolve_right hdrop

/-- `publish` is its open loop and, if nothing was refused there, a drain. -/
theorem publish_eq {strategy : RsStrategy} {ch ch' : Channel RsStrategy}
    (hch : e.channels[c]? = some ch) (hstart : ch.startOriginSession m strategy = (.ok (), ch'))
    (preamble : Bytes) :
    e.publish c m strategy preamble
      = match doTasks c m ((e.subscribersOf c).map .opening) (e.withRelay c m preamble ch') with
        | (.error err, e) => (.error err, e)
        | (.ok (), e) => e.drainSession c m := by
  have hsubs : e.subscribersOf c = ch'.subscribers.toList := by
    obtain ⟨-, rfl⟩ := Channel.startOriginSession_ok hstart
    simp [subscribersOf, hch]
  rw [← openEach_eq, hsubs]
  rw [publish_of_start hch hstart preamble]
  rcases openEach c m ch'.subscribers.toList (e.withRelay c m preamble ch') with ⟨err | _, e₂⟩ <;> rfl

/-- **`publish` opens to every subscriber outside `F`** exactly if none of them comes after a
subscriber in `F`. -/
theorem publishOpens_iff (hF : Fails F e) {strategy : RsStrategy} {preamble : Bytes}
    {ch ch' : Channel RsStrategy} (hch : e.channels[c]? = some ch)
    (hstart : ch.startOriginSession m strategy = (.ok (), ch')) (hnew : e.openedTo[(c, m)]? = none) :
    PublishOpens F e c m strategy preamble
      ↔ ∀ p ∈ (e.subscribersOf c).dropWhile (!F ·), F p = true := by
  obtain ⟨hm, rfl⟩ := Channel.startOriginSession_ok hstart
  -- the state in which the open loop starts
  obtain ⟨e₁, he₁⟩ : ∃ e₁, e₁ = e.withRelay c m preamble { ch with
      sessions := ch.sessions.insert m (ch.attachAll (Session.newOrigin strategy)) } := ⟨_, rfl⟩
  obtain ⟨clock, sessionMeta, hrelay⟩ := e.withRelay_eq c m preamble { ch with
    sessions := ch.sessions.insert m (ch.attachAll (Session.newOrigin strategy)) }
  rw [← he₁] at hrelay
  have hext : Extends e e₁ := .refl (by rw [hrelay])
  have hmsgs : e₁.messages = e.messages := by rw [hrelay]; rfl
  have hpre : e₁.sessionPreambles[(c, m)]? = some preamble := by
    rw [hrelay]
    exact (BTreeMap.get_insert ..).trans (if_pos rfl)
  have hclosed : ∀ p, e₁.isOpenTo c m p = false := fun p => by
    rw [hrelay]
    simp [isOpenTo, hnew]
  have hblocks : ∀ p, blocks F e₁ c m (.opening p) = F p := fun p => by
    simp [blocks, needsOpen, Task.peer, hclosed, hpre]
  have hsubs : e.subscribersOf c = ch.subscribers.toList := by simp [subscribersOf, hch]
  have hnodup : (e.subscribersOf c).Nodup := hsubs ▸ ch.subscribers.nodup_toList
  obtain ⟨sent, hsent, hopened, hothers⟩ := doTasks_opened (hF.extends hext) hpre
    ((e.subscribersOf c).map .opening)
  have hok := (hF.extends hext).doTasks_isOk (c := c) (m := m) ((e.subscribersOf c).map .opening)
  simp only [List.takeWhile_map, Function.comp_def, hblocks, List.all_map] at hopened hothers hok
  have hpublish := publish_eq (m := m) hch hstart preamble
  rw [← he₁] at hpublish
  have hnewmsgs : ∀ rest, (e.publish c m strategy preamble).2.messages
      = e.messages ++ (sent ++ rest) →
      ((e.publish c m strategy preamble).2.net.log.drop e.net.log.length).map Sent.msg
        = sent ++ rest := by
    intro rest h
    have hlength : e.net.log.length = e.messages.length := by simp [messages]
    rw [List.map_drop, hlength]
    exact (congrArg (List.drop _) h).trans List.drop_left
  unfold PublishOpens
  constructor
  · intro hall p hp
    by_contra hout
    rw [Bool.not_eq_true] at hout
    have hmem : p ∈ e.subscribersOf c := List.dropWhile_sublist _ |>.subset hp
    have hblocked : (doTasks c m ((e.subscribersOf c).map .opening) e₁).1.isOk = false := by
      rw [hok, ← Bool.not_eq_true, List.all_eq_true]
      intro hnone
      rw [List.dropWhile_eq_nil_iff.mpr hnone] at hp
      cases hp
    have hsame : (e.publish c m strategy preamble).2
        = (doTasks c m ((e.subscribersOf c).map .opening) e₁).2 := by
      rw [hpublish]
      rcases hr : doTasks c m ((e.subscribersOf c).map .opening) e₁ with ⟨err | _, e₂⟩
      · rfl
      · rw [hr] at hblocked
        cases hblocked
    have hin := hall p hmem hout
    rw [hnewmsgs [] (by rw [hsame, hsent, hmsgs, List.append_nil]), List.append_nil] at hin
    obtain ⟨t, ht, hpeer⟩ := hothers _ hin p rfl hout
    obtain ⟨q, hq, rfl⟩ := List.mem_map.mp ht
    obtain rfl : q = p := hpeer
    exact (mem_takeWhile_iff hnodup hmem).mp hq hp
  · intro hnone p hp hout
    have htake : p ∈ (e.subscribersOf c).takeWhile (!F ·) := by
      rw [mem_takeWhile_iff hnodup hp]
      intro hdrop
      simp [hnone p hdrop] at hout
    have hin := hopened (.opening p) (List.mem_map_of_mem htake) (hclosed p)
    obtain ⟨rest, hrest⟩ : ∃ rest, (e.publish c m strategy preamble).2.messages
        = e.messages ++ (sent ++ rest) := by
      rw [hpublish]
      rcases hr : doTasks c m ((e.subscribersOf c).map .opening) e₁ with ⟨err | _, e₂⟩ <;>
        rw [hr] at hsent
      · exact ⟨[], by rw [List.append_nil, hsent, hmsgs]⟩
      · obtain ⟨more, hmore⟩ := (drainSession_steps e₂ c m).extends.2
        refine ⟨more.map Sent.msg, ?_⟩
        rw [← List.append_assoc, ← hmsgs, ← hsent, messages, ← hmore, List.map_append]
        rfl
    rw [hnewmsgs rest hrest]
    exact List.mem_append_left _ hin

end Fails

/-! ## Only a live session has been opened -/

section Live

variable [Crates] {N : Type} [Net N] {i : Input RsStrategy} {D : Terms N}
  {e e' : Engine RsStrategy N}

/-- A key without session has no retained preamble and was opened to nobody. -/
def OpensLive (e : Engine RsStrategy N) : Prop :=
  ∀ c m, e.session? c m = none →
    e.sessionPreambles[(c, m)]? = none ∧ e.openedTo[(c, m)]? = none

/-- Only a sweep removes a session. -/
theorem Act.session_none (h : Act i D e e') (hsweeps : ¬ D.sweeps) {c : ChannelId} {m : MessageId}
    (hnone : e'.session? c m = none) : e.session? c m = none := by
  have htrans := h.session c m
  rw [hnone] at htrans
  generalize e.session? c m = o at htrans ⊢
  cases htrans with
  | kept => rfl
  | removed hyes => exact absurd hyes hsweeps

/-- A drain opens nothing without a retained preamble. -/
theorem DrainStepsIf.opened_none {P : Session RsStrategy → Prop} {c c' : ChannelId}
    {m m' : MessageId} (h : DrainStepsIf P c' m' e e')
    (he : e.sessionPreambles[(c, m)]? = none ∧ e.openedTo[(c, m)]? = none) :
    e'.sessionPreambles[(c, m)]? = none ∧ e'.openedTo[(c, m)]? = none := by
  refine h.induct (Q := fun e => e.sessionPreambles[(c, m)]? = none ∧ e.openedTo[(c, m)]? = none)
    (fun hstep he => ?_) he
  cases hstep with
  | openRefused | routed | polled | chunkAccepted | chunkRefused => exact he
  | opened _ hpre =>
    refine ⟨he.1, ?_⟩
    rw [BTreeMap.get_alter, if_neg, he.2]
    intro hk
    rw [hk, he.1] at hpre
    cases hpre

/-- Only live sessions are open anywhere, as long as none is disposed. -/
theorem Act.opensLive (h : Act i D e e') (hsweeps : ¬ D.sweeps) (he : e.OpensLive) :
    e'.OpensLive := by
  intro c m hnone
  have hold := he c m (h.session_none hsweeps hnone)
  -- a new session is live, so that it is another one that is not
  have hcreated : ∀ {c' : ChannelId} {m' : MessageId} {preamble : Bytes} {ch : Channel RsStrategy},
      e' = e.withRelay c' m' preamble ch → m' ∈ ch.sessions →
      e'.sessionPreambles[(c, m)]? = none ∧ e'.openedTo[(c, m)]? = none := by
    rintro c' m' preamble ch rfl hmem
    obtain ⟨clock, sessionMeta, hrelay⟩ := e.withRelay_eq c' m' preamble ch
    rw [hrelay] at hnone ⊢
    refine ⟨?_, hold.2⟩
    rw [BTreeMap.get_insert, if_neg, hold.1]
    intro hk
    obtain ⟨rfl, rfl⟩ := Prod.mk.inj hk
    obtain ⟨s, hs⟩ := (BTreeMap.mem_iff_get _ _).mp hmem
    have hsome := session?_insert e c' c' m' ch
    rw [if_pos rfl, hs] at hsome
    exact absurd (hnone.symm.trans hsome) (by simp)
  cases h with
  | hosted | announced | registered | greeted | rejected | enrolled | unsubscribed | refusedOpen
  | parked | unparked | resolved | detached | ticked | scheduled | received => exact hold
  | disconnected =>
    refine ⟨hold.1, ?_⟩
    show (e.openedTo.map fun _ s => s.erase _)[(c, m)]? = none
    rw [ExtTreeMap.getElem?_map, hold.2]
    rfl
  | openedRelay _ _ _ hopen =>
    obtain ⟨-, strategy, factory, -, rfl⟩ := Channel.openSession_ok hopen
    exact hcreated rfl (by simp)
  | startedOrigin _ _ hstart =>
    obtain ⟨-, rfl⟩ := Channel.startOriginSession_ok hstart
    exact hcreated rfl (by simp)
  | ensured hto => exact (ensureSessionOpen_steps e _ _ _ (.inl hto)).opened_none hold
  | drained => exact (drainSession_steps e _ _).opened_none hold
  | took =>
    rw [takeChunk_eq]
    exact hold
  | @decoded c' m' session =>
    obtain ⟨clock, sessionMeta, delivered, hdecode, -⟩ := e.afterDecode_eq c' m' session
    rw [hdecode]
    exact hold
  | disposed hyes | swept hyes => exact absurd hyes hsweeps

omit [Crates] [Net N] in
/-- A disposed session is forgotten with its opens. -/
theorem OpensLive.disposeSession (he : e.OpensLive) (c : ChannelId) (m : MessageId)
    (now : Instant) : (e.disposeSession c m now).OpensLive := by
  intro c' m' hnone
  rw [session?_disposeSession] at hnone
  show (e.sessionPreambles.erase (c, m))[(c', m')]? = none
    ∧ (e.openedTo.erase (c, m))[(c', m')]? = none
  rw [BTreeMap.get_erase, BTreeMap.get_erase]
  by_cases hk : (c, m) = (c', m')
  · simp [hk]
  · rw [if_neg hk, if_neg hk]
    rw [if_neg fun h => hk (by rw [h.1, h.2])] at hnone
    exact he c' m' hnone

omit [Crates] [Net N] in
theorem OpensLive.maybeRunCleanup (he : e.OpensLive) : e.maybeRunCleanup.OpensLive := by
  unfold Engine.maybeRunCleanup
  dsimp only
  split
  · exact he
  · refine List.foldlRecOn (motive := OpensLive) _ _ he ?_
    intro e he k _
    exact he.disposeSession k.1 k.2 _

/-- Only live sessions are open anywhere, in every reachable state. -/
theorem opensLive_run (localPeer : PeerId) (net : N) (delivered : Sink) (config : EngineConfig)
    (clock : Clock) (inputs : List (Input RsStrategy)) :
    ((withConfig localPeer net delivered config clock).run inputs).OpensLive := by
  refine run_induct (fun e i _ he => ?_) fun c m _ => by simp [withConfig]
  have hbefore : (e.beforeSweep i).OpensLive :=
    (beforeSweep_acts (D := ⟨fun _ _ => True, True, False⟩) trivial i e fun _ _ => trivial).induct
      (fun hact he => hact.opensLive id he) he
  rw [step_eq]
  cases i with
  | event ev => exact hbefore.maybeRunCleanup
  | subscribe | connect | publish | recv => exact hbefore

end Live

/-! ## Runs -/

section Runs

variable [Crates] {F : PeerId → Bool} {e : Engine RsStrategy Wire}

/-- The rounds of a drain only submit more. -/
theorem drainRounds_extends (k : SessionKey) (fuel : Nat) (e : Engine RsStrategy Wire) :
    ∀ e' ∈ drainRounds k.1 k.2 fuel e, Extends e e' := by
  induction fuel generalizing e with
  | zero => simp [drainRounds]
  | succ fuel ih =>
    have hext := (drainRound_steps e k.1 k.2).extends
    unfold drainRounds
    rw [List.forall_mem_cons]
    refine ⟨.refl rfl, fun e' he' => ?_⟩
    rcases hr : e.drainRound k.1 k.2 with ⟨_ | r, e₁⟩ <;> rw [hr] at he' hext
    · exact hext.trans (ih e₁ e' he')
    · cases he'

theorem Acts.extends {i : Input RsStrategy} {D : Terms Wire} {e' : Engine RsStrategy Wire}
    (h : Acts i D e e') : Extends e e' := by
  refine h.net (Q := fun net => net.answer = e.net.answer ∧ e.net.log <+: net.log) ?_ ⟨rfl, List.prefix_rfl⟩
  intro net msg hnet
  exact ⟨hnet.1, hnet.2.trans (List.prefix_append _ _)⟩

/-- `drain_channel` drains every session of the channel. -/
def DrainsEvery (e : Engine RsStrategy Wire) (c : ChannelId) : Prop :=
  ∀ ch, e.channels[c]? = some ch → (e.drainChannelCalls c).map (·.2.2) = ch.sessions.keys

/-- No drain of `drain_channel` but that of the channel's last session blocks. -/
def OnlyLastBlocks (F : PeerId → Bool) (e : Engine RsStrategy Wire) (c : ChannelId) : Prop :=
  ∀ ch, e.channels[c]? = some ch → ∀ call ∈ e.drainChannelCalls c,
    ch.sessions.keys.getLast? ≠ some call.2.2 → DrainUnblocked F call.1 call.2

/-- Every session of a channel is drained if and only if none but the last is blocked. -/
theorem drainsEvery_iff (hF : Fails F e) (c : ChannelId) :
    DrainsEvery e c ↔ OnlyLastBlocks F e c := by
  unfold DrainsEvery OnlyLastBlocks
  refine forall_congr' fun ch => forall_congr' fun hch => ?_
  have hcalls : e.drainChannelCalls c = drainEachCalls c ch.sessions.keys e := by
    simp [drainChannelCalls, hch]
  rw [hcalls]
  exact drainEachCalls_eq_iff c _ ExtTreeMap.nodup_keys e hF

/-- **When a failing peer costs the others nothing.**  In every reachable state, whatever set `F` of
peers the transport refuses from then on:
`publish` opens to every subscriber outside `F` exactly if none of them comes after one in `F`;
a round of a drain submits to the peers outside `F` what it submits when nothing is refused exactly
if none of its tasks for them comes after a task that blocks;
`drain_channel` drains every session exactly if no drain but the last one has a task that blocks. -/
theorem run_isolated_iff (localPeer : PeerId) (net : Wire) (delivered : Sink)
    (config : EngineConfig) (clock : Clock) (inputs : List (Input RsStrategy)) (F : PeerId → Bool)
    (hF : Fails F ((withConfig localPeer net delivered config clock).run inputs)) :
    let e := (withConfig localPeer net delivered config clock).run inputs
    (∀ c m strategy preamble ch ch', e.channels[c]? = some ch →
      ch.startOriginSession m strategy = (.ok (), ch') →
      (PublishOpens F e c m strategy preamble
        ↔ ∀ p ∈ (e.subscribersOf c).dropWhile (!F ·), F p = true))
    ∧ (∀ c m strategy preamble call,
      call ∈ e.publishCalls c m strategy preamble ∨ call ∈ e.drainChannelCalls c →
      ∀ e' ∈ drainRounds call.2.1 call.2.2 (call.1.drainFuel call.2.1 call.2.2) call.1,
        (RoundIsolated F e' call.2.1 call.2.2
          ↔ NoneCutOff F e' call.2.1 call.2.2 (e'.roundTasks call.2.1 call.2.2)))
    ∧ ∀ c, DrainsEvery e c ↔ OnlyLastBlocks F e c := by
  intro e
  refine ⟨fun c m strategy preamble ch ch' hch hstart => ?_,
    fun c m strategy preamble call hcall e' he' => ?_, drainsEvery_iff hF⟩
  · have hlive := opensLive_run localPeer net delivered config clock inputs c m
      (session?_eq_none_of_not_mem hch (Channel.startOriginSession_ok hstart).1)
    exact publishOpens_iff hF hch hstart hlive.2
  · have hext : Extends e call.1 := hcall.elim
      (fun hcall => (publishCalls_acts c m strategy preamble e call hcall).extends)
      (fun hcall => (drainChannelCalls_acts (i := .recv) c e call hcall).extends)
    exact roundIsolated_iff ((hF.extends hext).extends (drainRounds_extends call.2 _ _ e' he')) _ _

end Runs

section OneShard

attribute [local instance] oneShard

/-- Refuse what is addressed to peer `p`. -/
def refusing (p : PeerId) (_ : List Sent) (msg : NetSend) : Except NetError Unit :=
  if msg.destPeer = some p then .error (.backpressure p) else .ok ()

/-- A transport that refuses one peer fails it. -/
theorem fails_refusing {p : PeerId} {e : Engine RsStrategy Wire} (h : e.net.answer = refusing p) :
    Fails (· = p) e := by
  intro log msg _
  rw [h, refusing]
  rcases msg.destPeer with _ | q
  · rfl
  · by_cases hq : q = p <;> simp [hq, Except.isOk, Except.toBool]

/-- Peers 1 and 2 subscribe to a node. -/
def subscribeTwo : List (Input RsStrategy) :=
  [.subscribe "c" (rsRelayFactory {} fun _ => 7), .event (.subscribe 1 "c"),
    .event (.subscribe 2 "c")]

/-- The message `01` is then published. -/
def publishOnce : List (Input RsStrategy) :=
  subscribeTwo ++ [.publish "c" "m1" OneShard.origin (OneShard.preambleBytes OneShard.preamble)]

/-- The message `01` is then published under two names. -/
def publishTwice : List (Input RsStrategy) :=
  subscribeTwo ++ ["m1", "m2"].map fun m =>
    .publish "c" m OneShard.origin (OneShard.preambleBytes OneShard.preamble)

/-- The transport refuses the later of two subscribers: a publish opens to the other one all the same, and a
drain of the channel reaches its only session. -/
theorem run_isolated_last_fails :
    Fails (· = 2) ((nodeOver (refusing 2)).run publishOnce)
    ∧ PublishOpens (· = 2) ((nodeOver (refusing 2)).run publishOnce) "c" "m2" OneShard.origin
        (OneShard.preambleBytes OneShard.preamble)
    ∧ (((nodeOver (refusing 2)).run publishOnce).session? "c" "m1").isSome
    ∧ DrainsEvery ((nodeOver (refusing 2)).run publishOnce) "c" := by
  have hF : Fails (· = 2) ((nodeOver (refusing 2)).run publishOnce) := fails_refusing (by rfl)
  have hiff := run_isolated_iff 0 ⟨refusing 2, []⟩ ⟨8, [], false⟩ {} ⟨fun n => n, 0⟩ publishOnce
    (· = 2) hF
  have hstart : ((nodeOver (refusing 2)).run publishOnce).channels["c"]?.any
      (fun ch => (ch.startOriginSession "m2" OneShard.origin).1.isOk && ch.sessions.keys = ["m1"]) = true := by
    decide +kernel
  have hcalls : (((nodeOver (refusing 2)).run publishOnce).drainChannelCalls "c").all
      (·.2.2 = "m1") = true := by
    decide +kernel
  have hlast : ((((nodeOver (refusing 2)).run publishOnce).subscribersOf "c").dropWhile
      (fun q => !decide (q = 2))).all (· = 2) = true := by decide +kernel
  obtain ⟨ch, hch, hprops⟩ := (Option.any_eq_true _ _).mp hstart
  obtain ⟨hok, hkeys⟩ := Bool.and_eq_true_iff.mp hprops
  rcases hr : ch.startOriginSession "m2" OneShard.origin with ⟨err | ⟨⟩, ch'⟩
  · rw [hr] at hok
    cases hok
  · refine ⟨hF, (hiff.1 "c" "m2" _ _ ch ch' hch hr).mpr (List.all_eq_true.mp hlast), by decide +kernel,
      (hiff.2.2 "c").mpr fun ch₁ hch₁ call hcall hnot => ?_⟩
    -- the one drain is that of the last session
    obtain rfl : ch = ch₁ := Option.some.inj (hch.symm.trans hch₁)
    have hcall : call.2.2 = "m1" := of_decide_eq_true (List.all_eq_true.mp hcalls call hcall)
    rw [of_decide_eq_true hkeys, hcall] at hnot
    exact absurd rfl hnot

/-- What peer 1 refuses costs peer 2 the open of `publish`, its part of a round, and the drain of a
whole session. -/
theorem run_not_isolated_first_fails :
    (Fails (· = 1) ((nodeOver (refusing 1)).run subscribeTwo)
      ∧ ¬ PublishOpens (· = 1) ((nodeOver (refusing 1)).run subscribeTwo) "c" "m1" OneShard.origin
        (OneShard.preambleBytes OneShard.preamble))
    ∧ Fails (· = 1) ((nodeOver (refusing 1)).run publishTwice)
    ∧ (∃ call ∈ ((nodeOver (refusing 1)).run publishTwice).drainChannelCalls "c",
      ∃ e' ∈ drainRounds call.2.1 call.2.2 (call.1.drainFuel call.2.1 call.2.2) call.1,
        ¬ RoundIsolated (· = 1) e' call.2.1 call.2.2)
    ∧ ¬ DrainsEvery ((nodeOver (refusing 1)).run publishTwice) "c" := by
  have hF : Fails (· = 1) ((nodeOver (refusing 1)).run publishTwice) := fails_refusing (by rfl)
  refine ⟨⟨fails_refusing (by rfl), fun hopens => ?_⟩, hF, ?_, fun hdrains => ?_⟩
  -- the publish stops at peer 1 before it comes to peer 2
  · have hsub : 2 ∈ ((nodeOver (refusing 1)).run subscribeTwo).subscribersOf "c" := by
      decide +kernel
    have hnone : ((((nodeOver (refusing 1)).run subscribeTwo).publish "c" "m1" OneShard.origin
        (OneShard.preambleBytes OneShard.preamble)).2.net.log.drop
          ((nodeOver (refusing 1)).run subscribeTwo).net.log.length).any
        (·.msg.destPeer = some 2) = false := by decide +kernel
    obtain ⟨sent, hsent, hmsg⟩ := List.mem_map.mp (hopens 2 hsub (by decide))
    exact List.any_eq_false.mp hnone sent hsent (by rw [hmsg]; rfl)
  -- so does the round of the drain
  · have hcut : ∃ call ∈ ((nodeOver (refusing 1)).run publishTwice).drainChannelCalls "c",
        ∃ e' ∈ drainRounds call.2.1 call.2.2 (call.1.drainFuel call.2.1 call.2.2) call.1,
          ¬ NoneCutOff (· = 1) e' call.2.1 call.2.2 (e'.roundTasks call.2.1 call.2.2) := by
      decide +kernel
    obtain ⟨call, hcall, e', he', hcut⟩ := hcut
    refine ⟨call, hcall, e', he', fun hisolated => hcut ((roundIsolated_iff ?_ _ _).mp hisolated)⟩
    exact (hF.extends (drainChannelCalls_acts (i := .recv) "c" _ call hcall).extends).extends
      (drainRounds_extends call.2 _ _ e' he')
  -- and the second session is not drained at all
  · have hchannel : ((nodeOver (refusing 1)).run publishTwice).channels["c"]?.any
        (·.sessions.keys = ["m1", "m2"]) = true := by decide +kernel
    have hcalls : (((nodeOver (refusing 1)).run publishTwice).drainChannelCalls "c").map (·.2.2)
        = ["m1"] := by decide +kernel
    obtain ⟨ch, hch, hkeys⟩ := (Option.any_eq_true _ _).mp hchannel
    have hall := hdrains ch hch
    rw [hcalls, of_decide_eq_true hkeys] at hall
    cases hall

end OneShard

end Engine

end Ethp2p
