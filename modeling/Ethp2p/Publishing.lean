/-
# Ethp2p.Publishing — publishing over a transport that accepts: nothing skipped, nothing repeated.

`publish` opens the session to the subscribers and drains it.  Suppose every send of the call is accepted
(`AllAccepted`).  Then each loop submits exactly its messages, the drain polls until a poll is empty, and by
then (`RsStrategy.Sending`) each subscriber was dispatched each shard.  The loop's fuel is never used up:
every turn but the last sends something, and the routing update is sent once.

The tokens are the handles of a 64-bit counter, so they are distinct exactly as long as the message does not
need more of them than there are.
-/
import Ethp2p.Bookkeeping
import Ethp2p.Strategy.Rs.Sending

namespace Ethp2p

open Std

/-! ## Messages -/

namespace NetSend

/-- The dispatch a chunk was submitted for. -/
def dispatch? : NetSend → Option (ChunkDispatch Nat)
  | .chunk peer _ _ chunkId payload token => some ⟨peer, chunkId, token, payload⟩
  | _ => none

/-- The message is a `SessionOpen`. -/
def isOpen : NetSend → Bool
  | .sessionOpen .. => true
  | _ => false

/-- The message is a routing update. -/
def isRouting : NetSend → Bool
  | .routingUpdate .. => true
  | _ => false

end NetSend

/-- The chunk submitted for a dispatch. -/
def ChunkDispatch.message (c : ChannelId) (m : MessageId) (d : ChunkDispatch Nat) : NetSend :=
  .chunk d.peer c m d.chunkId d.payload d.handle

/-- The transport after it accepted these messages. -/
def Wire.taking (w : Wire) (msgs : List NetSend) : Wire :=
  { w with log := w.log ++ msgs.map fun msg => ⟨msg, .ok ()⟩ }

/-- Messages that are taken after others are taken after all of them. -/
theorem Wire.taking_taking (w : Wire) (msgs msgs' : List NetSend) :
    (w.taking msgs).taking msgs' = w.taking (msgs ++ msgs') := by
  simp [Wire.taking]

theorem Wire.taking_nil (w : Wire) : w.taking [] = w := by
  simp [Wire.taking]

/-- Attaching the subscribers to a session attaches them to its strategy. -/
theorem Channel.attachAll_eq [Crates] (ch : Channel RsStrategy) (s : Session RsStrategy) :
    ch.attachAll s = ⟨RsStrategy.attachEach ch.subscribers.toList s.strategy, s.state⟩ := by
  unfold attachAll
  induction ch.subscribers.toList generalizing s with
  | nil => rfl
  | cons p ps ih => exact ih (s.attachPeer p)

namespace Engine

/-- What was submitted for a key since an earlier state. -/
def submittedSince (e e' : Engine RsStrategy Wire) (k : SessionKey) : List NetSend :=
  ((e'.net.log.drop e.net.log.length).map Sent.msg).filter (·.sessionKey? = some k)

/-- Everything submitted since an earlier state was accepted. -/
def AllAccepted (e e' : Engine RsStrategy Wire) : Prop :=
  ∀ sent ∈ e'.net.log.drop e.net.log.length, sent.accepted

/-- The pending sends with these dispatches added. -/
def addPending (c : ChannelId) (m : MessageId)
    (pending : BTreeMap (ChannelId × MessageId × DispatchHandle) PeerId) (ds : List (ChunkDispatch Nat)) :
    BTreeMap (ChannelId × MessageId × DispatchHandle) PeerId :=
  ds.foldl (fun pending d => pending.insert (c, m, d.handle) d.peer) pending

variable {e e' e'' : Engine RsStrategy Wire} {c : ChannelId} {m : MessageId}

/-! ## Loops whose sends are accepted -/

/-- If everything of two parts was accepted, then everything of the first was. -/
theorem AllAccepted.left (h : AllAccepted e e'') (hlog : e'.net.log <+: e''.net.log) : AllAccepted e e' := by
  obtain ⟨more, hmore⟩ := hlog
  intro sent hsent
  refine h sent ?_
  rw [← hmore, List.drop_append]
  exact List.mem_append_left _ hsent

/-- If everything of two parts was accepted, then everything of the second was. -/
theorem AllAccepted.right (h : AllAccepted e e'') (hlog : e.net.log <+: e'.net.log) :
    AllAccepted e' e'' := by
  intro sent hsent
  refine h sent (List.drop_subset_drop_left _ hlog.length_le hsent)

/-- An accepted message. -/
theorem send_accepted (msg : NetSend) (h : AllAccepted e (e.send msg).2) :
    e.send msg = (.ok (), { e with net := e.net.taking [msg] }) := by
  have hlog : (e.send msg).2.net.log = e.net.log ++ [⟨msg, e.net.answer e.net.log msg⟩] := by
    rw [send_eq]
    rfl
  have haccepted : (e.net.answer e.net.log msg).isOk := by
    refine h ⟨msg, e.net.answer e.net.log msg⟩ ?_
    rw [hlog, List.drop_left]
    exact List.mem_singleton_self _
  have hanswer : e.net.answer e.net.log msg = .ok () := by
    cases hr : e.net.answer e.net.log msg with
    | ok => rfl
    | error err =>
      rw [hr] at haccepted
      cases haccepted
  refine send_ok ?_
  show (e.net.answer e.net.log msg, _) = _
  rw [hanswer]
  rfl

/-- Whatever part of a publish runs, the log only grows. -/
theorem send_log (e : Engine RsStrategy Wire) (msg : NetSend) : e.net.log <+: (e.send msg).2.net.log := by
  rw [send_eq]
  exact List.prefix_append _ _

/-- Opening the session to a peer it was not opened to. -/
theorem ensureSessionOpen_accepted {peer : PeerId} {preamble : Bytes}
    (hnew : e.openedTo[(c, m)]?.any (peer ∈ ·) = false)
    (hpre : e.sessionPreambles[(c, m)]? = some preamble)
    (h : AllAccepted e (e.ensureSessionOpen c m peer).2) :
    e.ensureSessionOpen c m peer = (.ok (), { e with
      net := e.net.taking [.sessionOpen peer c m preamble []]
      openedTo := e.openedTo.alter (c, m) fun s => some ((s.getD ∅).insert peer) }) := by
  unfold ensureSessionOpen at h ⊢
  rw [hnew] at h ⊢
  simp only [Bool.false_eq_true, if_false, hpre] at h ⊢
  rcases hsend : e.send (.sessionOpen peer c m preamble []) with ⟨err | _, e₁⟩ <;> rw [hsend] at h
  · have hok := send_accepted (.sessionOpen peer c m preamble []) (by rwa [hsend])
    rw [hsend] at hok
    cases hok
  · have hok := send_accepted (e := e) (.sessionOpen peer c m preamble []) (by rwa [hsend])
    rw [hsend] at hok
    obtain ⟨-, rfl⟩ := Prod.mk.inj hok
    rfl

theorem openEach_log (c : ChannelId) (m : MessageId) (peers : List PeerId) (e : Engine RsStrategy Wire) :
    e.net.log <+: (openEach c m peers e).2.net.log := by
  induction peers generalizing e with
  | nil => exact List.prefix_rfl
  | cons peer peers ih =>
    have hopen := ensureSessionOpen_log e c m peer
    unfold openEach
    rcases hr : e.ensureSessionOpen c m peer with ⟨err | _, e₁⟩ <;> rw [hr] at hopen
    · exact hopen
    · exact hopen.trans (ih e₁)

/-- The open loop over peers the session was not opened to. -/
theorem openEach_accepted {peers : List PeerId} {preamble : Bytes} (hnodup : peers.Nodup)
    (hnew : ∀ p ∈ peers, e.openedTo[(c, m)]?.any (p ∈ ·) = false)
    (hpre : e.sessionPreambles[(c, m)]? = some preamble)
    (h : AllAccepted e (openEach c m peers e).2) :
    ∃ openedTo, openEach c m peers e = (.ok (), { e with
        net := e.net.taking (peers.map fun p => .sessionOpen p c m preamble [])
        openedTo })
      ∧ ∀ p, openedTo[(c, m)]?.any (p ∈ ·) ↔ p ∈ peers ∨ e.openedTo[(c, m)]?.any (p ∈ ·) := by
  -- a refused open would be in the log, which `h` excludes; so every open is taken
  induction peers generalizing e with
  | nil => exact ⟨e.openedTo, by simp [openEach, Wire.taking], by simp⟩
  | cons peer peers ih =>
    obtain ⟨hfirst, hrest⟩ := List.nodup_cons.mp hnodup
    have hopen := ensureSessionOpen_accepted (hnew peer List.mem_cons_self) hpre
    unfold openEach at h ⊢
    rcases hr : e.ensureSessionOpen c m peer with ⟨err | _, e₁⟩ <;> rw [hr] at h hopen
    · cases hopen h
    · have hlog := openEach_log c m peers e₁
      have hall : AllAccepted e (openEach c m peers e₁).2 := h
      obtain ⟨-, he₁⟩ := Prod.mk.inj (hopen (hall.left hlog))
      have hget : ∀ p, e₁.openedTo[(c, m)]?.any (p ∈ ·) ↔ p = peer ∨ e.openedTo[(c, m)]?.any (p ∈ ·) := by
        intro p
        rw [he₁, BTreeMap.get_alter, if_pos rfl, Option.any_some, decide_eq_true_eq,
          BTreeSet.mem_insert_iff, eq_comm (a := peer)]
        cases e.openedTo[(c, m)]? <;> simp
      -- the rest of the list is still unopened, since the list has no duplicate
      have hnew' : ∀ p ∈ peers, e₁.openedTo[(c, m)]?.any (p ∈ ·) = false := by
        intro p hp
        rw [← Bool.not_eq_true, hget, hnew p (List.mem_cons_of_mem peer hp)]
        rintro (rfl | hfalse)
        · exact hfirst hp
        · cases hfalse
      have hpre' : e₁.sessionPreambles[(c, m)]? = some preamble := by
        rw [he₁]
        exact hpre
      have hsent : e.net.log <+: e₁.net.log := by
        rw [he₁]
        exact List.prefix_append _ _
      obtain ⟨openedTo, heq, hmem⟩ := ih hrest hnew' hpre' (hall.right hsent)
      refine ⟨openedTo, ?_, fun p => ?_⟩
      · show openEach c m peers e₁ = _
        rw [heq, he₁]
        simp only [Wire.taking_taking, List.map_cons, List.singleton_append]
      · rw [hmem, hget, List.mem_cons]
        tauto

theorem routeEach_log (c : ChannelId) (m : MessageId) (payload : Bytes) (peers : List PeerId)
    (e : Engine RsStrategy Wire) : e.net.log <+: (routeEach c m payload peers e).2.net.log := by
  induction peers generalizing e with
  | nil => exact List.prefix_rfl
  | cons peer peers ih =>
    have hopen := ensureSessionOpen_log e c m peer
    unfold routeEach
    rcases hr : e.ensureSessionOpen c m peer with ⟨err | _, e₁⟩ <;> rw [hr] at hopen
    · exact hopen
    · have hsend := send_log e₁ (.routingUpdate peer c m payload)
      simp only
      rcases hr' : e₁.send (.routingUpdate peer c m payload) with ⟨err | _, e₂⟩ <;> rw [hr'] at hsend
      · exact hopen.trans hsend
      · exact (hopen.trans hsend).trans (ih e₂)

/-- The routing loop over peers the session was opened to. -/
theorem routeEach_accepted {peers : List PeerId} {payload : Bytes}
    (hopened : ∀ p ∈ peers, e.openedTo[(c, m)]?.any (p ∈ ·))
    (h : AllAccepted e (routeEach c m payload peers e).2) :
    routeEach c m payload peers e = (.ok (), { e with
      net := e.net.taking (peers.map fun p => .routingUpdate p c m payload) }) := by
  induction peers generalizing e with
  | nil => simp [routeEach, Wire.taking]
  | cons peer peers ih =>
    have hopen := ensureSessionOpen_of_opened (hopened peer List.mem_cons_self)
    have hsend := send_accepted (e := e) (.routingUpdate peer c m payload)
    unfold routeEach at h ⊢
    simp only [hopen] at h ⊢
    rcases hr : e.send (.routingUpdate peer c m payload) with ⟨err | _, e₁⟩ <;> rw [hr] at h hsend
    · cases hsend h
    · have hlog := routeEach_log c m payload peers e₁
      have hall : AllAccepted e (routeEach c m payload peers e₁).2 := h
      obtain ⟨-, he₁⟩ := Prod.mk.inj (hsend (hall.left hlog))
      have hsent : e.net.log <+: e₁.net.log := by
        rw [he₁]
        exact List.prefix_append _ _
      have hrest := ih (e := e₁) (fun p hp => he₁ ▸ hopened p (List.mem_cons_of_mem peer hp))
        (hall.right hsent)
      show routeEach c m payload peers e₁ = _
      rw [hrest, he₁]
      simp only [Wire.taking_taking, List.map_cons, List.singleton_append]

section Crates

variable [Crates]

theorem dispatchEach_log (c : ChannelId) (m : MessageId) (ds : List (ChunkDispatch Nat)) (stalled : Bool)
    (e : Engine RsStrategy Wire) : e.net.log <+: (dispatchEach c m ds stalled e).2.net.log := by
  induction ds generalizing e stalled with
  | nil => exact List.prefix_rfl
  | cons d ds ih =>
    have hopen := ensureSessionOpen_log e c m d.peer
    unfold dispatchEach
    rcases hr : e.ensureSessionOpen c m d.peer with ⟨err | _, e₁⟩ <;> rw [hr] at hopen
    · exact hopen
    · have hsend := send_log e₁ (.chunk d.peer c m d.chunkId d.payload d.handle)
      simp only
      rcases hr' : e₁.send (.chunk d.peer c m d.chunkId d.payload d.handle) with ⟨err | _, e₂⟩ <;>
        rw [hr'] at hsend
      · exact (hopen.trans hsend).trans (ih true (e₂.modifySession c m _))
      · exact (hopen.trans hsend).trans (ih stalled { e₂ with
          pendingSends := e₂.pendingSends.insert (c, m, d.handle) d.peer })

/-- The dispatch loop over peers the session was opened to. -/
theorem dispatchEach_accepted {ds : List (ChunkDispatch Nat)} (stalled : Bool)
    (hopened : ∀ d ∈ ds, e.openedTo[(c, m)]?.any (d.peer ∈ ·))
    (h : AllAccepted e (dispatchEach c m ds stalled e).2) :
    dispatchEach c m ds stalled e = (.ok stalled, { e with
      net := e.net.taking (ds.map (·.message c m))
      pendingSends := addPending c m e.pendingSends ds }) := by
  induction ds generalizing e with
  | nil => simp [dispatchEach, Wire.taking, addPending]
  | cons d ds ih =>
    have hopen := ensureSessionOpen_of_opened (hopened d List.mem_cons_self)
    have hsend := send_accepted (e := e) (.chunk d.peer c m d.chunkId d.payload d.handle)
    unfold dispatchEach at h ⊢
    simp only [hopen] at h ⊢
    rcases hr : e.send (.chunk d.peer c m d.chunkId d.payload d.handle) with ⟨err | _, e₁⟩ <;>
      rw [hr] at h hsend
    -- a refused chunk would be in the log
    · have hlog := dispatchEach_log c m ds true (e₁.modifySession c m (·.chunkSent d.peer d.handle false))
      have hrefused : AllAccepted e e₁ := h.left hlog
      cases hsend hrefused
    · have hlog := dispatchEach_log c m ds stalled
        { e₁ with pendingSends := e₁.pendingSends.insert (c, m, d.handle) d.peer }
      have hall : AllAccepted e (dispatchEach c m ds stalled
        { e₁ with pendingSends := e₁.pendingSends.insert (c, m, d.handle) d.peer }).2 := h
      have htaken : AllAccepted e e₁ := hall.left hlog
      obtain ⟨-, he₁⟩ := Prod.mk.inj (hsend htaken)
      have hsent : e.net.log <+: e₁.net.log := by
        rw [he₁]
        exact List.prefix_append _ _
      -- the chunk is taken and its token pends, and the rest goes on from there
      have hrest := ih (e := { e₁ with
          pendingSends := e₁.pendingSends.insert (c, m, d.handle) d.peer })
        (fun d' hd' => he₁ ▸ hopened d' (List.mem_cons_of_mem d hd')) (hall.right hsent)
      show dispatchEach c m ds stalled _ = _
      rw [hrest, he₁]
      simp only [Wire.taking_taking, List.map_cons, List.singleton_append]
      rfl

/-! ## The drain -/

/-- The routing update of a round, to each of these peers. -/
def routingTo (c : ChannelId) (m : MessageId) (peers : List PeerId) (routing : Option BitMap) :
    List NetSend :=
  match routing with
  | some routing => peers.map fun p => .routingUpdate p c m routing.asBytes
  | none => []

/-- A round with work whose sends are accepted: it submits all of it and polls again. -/
theorem drainRound_accepted {s : Session RsStrategy} (hs : e.session? c m = some s)
    (hwork : (s.poll.1.routing.isNone && s.poll.1.dispatches.isEmpty) = false)
    (hopened : ∀ p, p ∈ e.subscribersOf c ∨ (∃ d ∈ s.poll.1.dispatches, d.peer = p) →
      e.openedTo[(c, m)]?.any (p ∈ ·))
    (h : AllAccepted e (e.drainRound c m).2) :
    e.drainRound c m = (none, { e.modifySession c m (fun _ => s.poll.2) with
      net := e.net.taking (routingTo c m (e.subscribersOf c) s.poll.1.routing
        ++ s.poll.1.dispatches.map (·.message c m))
      pendingSends := addPending c m e.pendingSends s.poll.1.dispatches }) := by
  have hsubs := subscribersOf_modifySession e c m fun _ => s.poll.2
  -- the routing update goes to every subscriber first, if there is one
  have hroute : AllAccepted (e.modifySession c m fun _ => s.poll.2)
      (routeWork c m s.poll.1.routing (e.modifySession c m fun _ => s.poll.2)).2 →
      routeWork c m s.poll.1.routing (e.modifySession c m fun _ => s.poll.2)
        = (.ok (), { e.modifySession c m (fun _ => s.poll.2) with
          net := e.net.taking (routingTo c m (e.subscribersOf c) s.poll.1.routing) }) := by
    intro hacc
    cases hrouting : s.poll.1.routing with
    | none =>
      show (Except.ok (), _) = _
      rw [routingTo, Wire.taking_nil]
      rfl
    | some routing =>
      rw [hrouting] at hacc
      unfold routeWork at hacc ⊢
      simp only [hsubs] at hacc ⊢
      exact routeEach_accepted (fun p hp => hopened p (.inl hp)) hacc
  unfold drainRound at h ⊢
  simp only [hs, hwork, Bool.false_eq_true, if_false] at h ⊢
  rcases hr : routeWork c m s.poll.1.routing (e.modifySession c m fun _ => s.poll.2) with
    ⟨err | _, e₁⟩ <;> rw [hr] at h hroute
  · cases hroute h
  -- then the dispatches, and none of them stalls the round
  · have hdispatch := dispatchEach_log c m s.poll.1.dispatches false e₁
    have hall : AllAccepted (e.modifySession c m fun _ => s.poll.2)
        (dispatchEach c m s.poll.1.dispatches false e₁).2 := by
      simp only at h
      rcases hd : dispatchEach c m s.poll.1.dispatches false e₁ with ⟨err | stalled, e₂⟩ <;> rw [hd] at h
      · exact h
      · cases stalled <;> exact h
    obtain ⟨-, he₁⟩ := Prod.mk.inj (hroute (hall.left hdispatch))
    have hsent : (e.modifySession c m fun _ => s.poll.2).net.log <+: e₁.net.log := by
      rw [he₁]
      exact List.prefix_append _ _
    have hdispatched := dispatchEach_accepted (e := e₁) false
      (fun d hd => by rw [he₁]; exact hopened d.peer (.inr ⟨d, hd, rfl⟩)) (hall.right hsent)
    simp only [hdispatched]
    rw [he₁]
    simp only [Wire.taking_taking]
    rfl

/-- The drain of an origin has come this far. -/
structure Draining (e : Engine RsStrategy Wire) (c : ChannelId) (m : MessageId) (shards : List Bytes)
    (peers : List PeerId) (log : List (ChunkDispatch Nat)) (s : RsStrategy) : Prop where
  session : e.session? c m = some ⟨s, .origin⟩
  sending : s.Sending shards peers log
  subscribers : e.subscribersOf c = peers
  opened : ∀ p ∈ peers, e.openedTo[(c, m)]?.any (p ∈ ·)

/-- The drain has ended well: it submitted these messages, and the dispatches `ds` complete the log. -/
structure Drained (e : Engine RsStrategy Wire) (c : ChannelId) (m : MessageId) (shards : List Bytes)
    (peers : List PeerId) (log : List (ChunkDispatch Nat)) (msgs : List NetSend)
    (ds : List (ChunkDispatch Nat)) (r : Option (Except EngineError Unit) × Engine RsStrategy Wire) :
    Prop where
  ok : r.1 = some (.ok ())
  net_eq : r.2.net = e.net.taking msgs
  pending_eq : r.2.pendingSends = addPending c m e.pendingSends ds
  complete : ∃ s : RsStrategy, s.Sending shards peers (log ++ ds) ∧ s.pollChunks.1 = []

variable {shards : List Bytes} {peers : List PeerId} {log : List (ChunkDispatch Nat)} {s : RsStrategy}

/-- One round: it finds no work, or submits what the poll returned and goes on. -/
theorem Draining.round (h : e.Draining c m shards peers log s) (hacc : AllAccepted e (e.drainRound c m).2) :
    ((s.pollRouting false).1 = none ∧ (s.pollRouting false).2.pollChunks.1 = []
      ∧ Drained e c m shards peers log [] [] (e.drainRound c m))
    ∨ ((s.pollRouting false).1 ≠ none ∨ (s.pollRouting false).2.pollChunks.1 ≠ [])
      ∧ (e.drainRound c m).1 = none
      ∧ (e.drainRound c m).2.Draining c m shards peers (log ++ (s.pollRouting false).2.pollChunks.1)
        (s.pollRouting false).2.pollChunks.2
      ∧ (e.drainRound c m).2.net = e.net.taking (routingTo c m peers (s.pollRouting false).1
        ++ (s.pollRouting false).2.pollChunks.1.map (·.message c m))
      ∧ (e.drainRound c m).2.pendingSends
        = addPending c m e.pendingSends (s.pollRouting false).2.pollChunks.1 := by
  have hrouted := h.sending.pollRouting
  have hpolled := hrouted.pollChunks
  -- a poll with nothing to send ends the drain
  by_cases hidle : (s.pollRouting false).1 = none ∧ (s.pollRouting false).2.pollChunks.1 = []
  · left
    have hround := drainRound_idle h.session hidle.1 hidle.2
    refine ⟨hidle.1, hidle.2, ?_, ?_, ?_, _, (List.append_nil log).symm ▸ hrouted, hidle.2⟩ <;> rw [hround]
    · rw [Wire.taking_nil]
      rfl
    · rfl
  · right
    have hwork : ((Session.mk s .origin).poll.1.routing.isNone
        && (Session.mk s .origin).poll.1.dispatches.isEmpty) = false := by
      rw [Bool.and_eq_false_iff]
      show (s.pollRouting false).1.isNone = false ∨ (s.pollRouting false).2.pollChunks.1.isEmpty = false
      rw [← Bool.not_eq_true, ← Bool.not_eq_true, Option.isNone_iff_eq_none, List.isEmpty_iff]
      exact not_and_or.mp hidle
    have hround := drainRound_accepted h.session hwork (fun p hp => h.opened p ?_) hacc
    · rw [hround, h.subscribers]
      refine ⟨not_and_or.mp hidle, rfl, ⟨?_, hpolled, ?_, h.opened⟩, rfl, rfl⟩
      · refine (e.session?_modifySession_self c m fun _ => (Session.mk s .origin).poll.2).trans ?_
        rw [h.session]
        rfl
      · exact (subscribersOf_modifySession e c m _).trans h.subscribers
    · rcases hp with hp | ⟨d, hd, rfl⟩
      · exact h.subscribers ▸ hp
      · exact hpolled.peer_mem d (List.mem_append_right _ hd)

theorem drainLoop_log (c : ChannelId) (m : MessageId) (fuel : Nat) (e : Engine RsStrategy Wire) :
    e.net.log <+: (drainLoop c m fuel e).2.net.log :=
  (drainLoop_batch (P := fun _ => True) c m fuel e fun _ _ _ _ => trivial).stepsIf.log

omit [Crates] in
/-- A drain goes on after a round that submitted its messages. -/
theorem Drained.round {e₁ : Engine RsStrategy Wire} {msgs msgs' : List NetSend}
    {ds ds' : List (ChunkDispatch Nat)} {r : Option (Except EngineError Unit) × Engine RsStrategy Wire}
    (hnet : e₁.net = e.net.taking msgs) (hpending : e₁.pendingSends = addPending c m e.pendingSends ds)
    (h : Drained e₁ c m shards peers (log ++ ds) msgs' ds' r) :
    Drained e c m shards peers log (msgs ++ msgs') (ds ++ ds') r where
  ok := h.ok
  net_eq := by rw [h.net_eq, hnet, Wire.taking_taking]
  pending_eq := by rw [h.pending_eq, hpending, addPending, addPending, addPending, List.foldl_append]
  complete := by
    obtain ⟨s, hs, hnil⟩ := h.complete
    exact ⟨s, by rwa [← List.append_assoc], hnil⟩

/-- After the routing update every round but the last dispatches something. -/
theorem Draining.loop_announced (h : e.Draining c m shards peers log s) (hann : s.Announced) {fuel : Nat}
    (hfuel : shards.length * peers.length + 1 ≤ log.length + fuel)
    (hacc : AllAccepted e (drainLoop c m fuel e).2) :
    ∃ ds, Drained e c m shards peers log (ds.map (·.message c m)) ds (drainLoop c m fuel e) := by
  -- each round sends a shard that was not sent before, of which there are `shards * peers`
  induction fuel generalizing e log s with
  | zero =>
    have hle := h.sending.length_le
    omega
  | succ fuel ih =>
    have hquiet := hann.quiet
    unfold drainLoop at hacc ⊢
    rcases hr : e.drainRound c m with ⟨_ | r, e₁⟩ <;> rw [hr] at hacc
    · have hlog := drainLoop_log c m fuel e₁
      have hall : AllAccepted e (drainLoop c m fuel e₁).2 := hacc
      have hround := h.round (by rw [hr]; exact hall.left hlog)
      rw [hr, hquiet] at hround
      rcases hround with ⟨-, -, hdrained⟩ | ⟨hwork, -, hnext, hnet, hpending⟩
      · cases hdrained.ok
      · have hne := hwork.resolve_left (not_not.mpr rfl)
        have hpos : 0 < s.pollChunks.1.length := List.length_pos_iff.mpr hne
        have hsent : e.net.log <+: e₁.net.log := by
          rw [show e₁.net = _ from hnet]
          exact List.prefix_append _ _
        have hfuel' : shards.length * peers.length + 1 ≤ (log ++ s.pollChunks.1).length + fuel := by
          rw [List.length_append]
          omega
        obtain ⟨ds, hds⟩ := ih hnext hann.pollChunks hfuel' (hall.right hsent)
        refine ⟨s.pollChunks.1 ++ ds, ?_⟩
        rw [List.map_append]
        exact .round hnet hpending hds
    · have hround := h.round (by rw [hr]; exact hacc)
      rw [hr] at hround
      rcases hround with ⟨-, -, hdrained⟩ | ⟨-, hgoes, -⟩
      · exact ⟨[], hdrained⟩
      · cases hgoes

/-- **A drain of an origin whose sends are accepted** submits chunks and at most one routing update, and
ends when every subscriber was dispatched every shard. -/
theorem Draining.loop (h : e.Draining c m shards peers log s) (fuel : Nat)
    (hfuel : shards.length * peers.length + 2 ≤ log.length + fuel)
    (hacc : AllAccepted e (drainLoop c m fuel e).2) :
    ∃ before routing after, Drained e c m shards peers log (before.map (·.message c m)
      ++ (routingTo c m peers routing ++ after.map (·.message c m))) (before ++ after)
      (drainLoop c m fuel e) := by
  induction fuel generalizing e log s with
  | zero =>
    have hle := h.sending.length_le
    omega
  | succ fuel ih =>
    unfold drainLoop at hacc ⊢
    rcases hr : e.drainRound c m with ⟨_ | r, e₁⟩ <;> rw [hr] at hacc
    · have hlog := drainLoop_log c m fuel e₁
      have hall : AllAccepted e (drainLoop c m fuel e₁).2 := hacc
      have hround := h.round (by rw [hr]; exact hall.left hlog)
      rw [hr] at hround
      rcases hround with ⟨-, -, hdrained⟩ | ⟨hwork, -, hnext, hnet, hpending⟩
      · cases hdrained.ok
      · have hsent : e.net.log <+: e₁.net.log := by
          rw [show e₁.net = _ from hnet]
          exact List.prefix_append _ _
        rcases s.pollRouting_cases false with hquiet | hrouting
        · -- no routing update yet
          rw [hquiet] at hwork hnext hnet hpending
          have hne := hwork.resolve_left (not_not.mpr rfl)
          have hpos : 0 < s.pollChunks.1.length := List.length_pos_iff.mpr hne
          have hfuel' : shards.length * peers.length + 2 ≤ (log ++ s.pollChunks.1).length + fuel := by
            rw [List.length_append]
            omega
          obtain ⟨before, routing, after, hrest⟩ := ih hnext hfuel' (hall.right hsent)
          refine ⟨s.pollChunks.1 ++ before, routing, after, ?_⟩
          rw [List.map_append, List.append_assoc, List.append_assoc]
          exact .round hnet hpending hrest
        · -- the routing update goes out, and with it the last one
          have hann : (s.pollRouting false).2.Announced :=
            RsStrategy.announced_of_pollRouting (b := s.localHavelist) (by rw [hrouting])
          have hfuel' : shards.length * peers.length + 1
              ≤ (log ++ (s.pollRouting false).2.pollChunks.1).length + fuel := by
            rw [List.length_append]
            omega
          obtain ⟨ds, hrest⟩ := hnext.loop_announced hann.pollChunks hfuel' (hall.right hsent)
          refine ⟨[], (s.pollRouting false).1, (s.pollRouting false).2.pollChunks.1 ++ ds, ?_⟩
          rw [List.map_append, List.map_nil, List.nil_append, List.nil_append, ← List.append_assoc]
          exact .round hnet hpending hrest
    · have hround := h.round (by rw [hr]; exact hacc)
      rw [hr] at hround
      rcases hround with ⟨-, -, hdrained⟩ | ⟨-, hgoes, -⟩
      · exact ⟨[], none, [], hdrained⟩
      · cases hgoes

/-! ## Publishing -/

/-- A new origin has the fuel for every shard to every peer, and two rounds more. -/
theorem Draining.drainFuel_eq {strategy : RsStrategy} {log : List (ChunkDispatch Nat)}
    (h : e.Draining c m shards peers log (RsStrategy.attachEach peers strategy))
    (htotal : strategy.totalShards = shards.length) :
    e.drainFuel c m = shards.length * peers.length + 2 := by
  unfold drainFuel
  rw [h.session]
  show (RsStrategy.attachEach peers strategy).totalShards
    * (RsStrategy.attachEach peers strategy).attachedPeers.toList.length + 2 = _
  obtain ⟨attachedPeers, hattached, -⟩ := RsStrategy.attachEach_eq peers strategy
  rw [h.sending.attached_eq, hattached]
  exact congrArg (· * _ + 2) htotal

/-- What `publish` over a transport that accepts everything comes to. -/
theorem publish_accepted (hrs : RsCorrect) {ch : Channel RsStrategy} (hch : e.channels[c]? = some ch)
    (hfree : e.session? c m = none) (hclosed : e.openedTo[(c, m)]? = none) {payload : Bytes}
    {config : RsConfig} {seed : UInt64} {strategy : RsStrategy} (preamble : Bytes)
    (hnew : RsStrategy.newOriginWithSeed payload config seed = .ok strategy)
    (hacc : AllAccepted e (e.publish c m strategy preamble).2) :
    ∃ before routing after shards,
      (∃ s : RsStrategy, s.Sending shards ch.subscribers.toList (before ++ after) ∧ s.pollChunks.1 = [])
      ∧ strategy.totalShards = shards.length ∧ (∀ idx, strategy.chunkAt idx = shards[idx]?)
      ∧ (e.publish c m strategy preamble).1 = .ok ()
      ∧ (e.publish c m strategy preamble).2.net
        = e.net.taking (ch.subscribers.toList.map (fun p => .sessionOpen p c m preamble [])
          ++ (before.map (·.message c m) ++ (routingTo c m ch.subscribers.toList routing
            ++ after.map (·.message c m))))
      ∧ (e.publish c m strategy preamble).2.pendingSends
        = addPending c m e.pendingSends (before ++ after) := by
  obtain ⟨shards, hsending, htotal, hchunks⟩ := RsStrategy.sending_start hrs hnew ch.subscribers
  have hm : m ∉ ch.sessions := by
    refine BTreeMap.not_mem_of_get ?_
    simpa [session?, hch] using hfree
  -- the channel takes the session, with its subscribers attached
  have hstart : ch.startOriginSession m strategy = (.ok (), { ch with
      sessions := ch.sessions.insert m (ch.attachAll (Session.newOrigin strategy)) }) := by
    unfold Channel.startOriginSession
    rw [if_neg hm]
  have hattach : ch.attachAll (Session.newOrigin strategy)
      = ⟨RsStrategy.attachEach ch.subscribers.toList strategy, .origin⟩ :=
    ch.attachAll_eq (Session.newOrigin strategy)
  obtain ⟨clock, sessionMeta, hrelay⟩ := e.withRelay_eq c m preamble { ch with
    sessions := ch.sessions.insert m (ch.attachAll (Session.newOrigin strategy)) }
  have hpublish := publish_of_start hch hstart preamble
  rw [hpublish] at hacc ⊢
  generalize he₁ : e.withRelay c m preamble { ch with
    sessions := ch.sessions.insert m (ch.attachAll (Session.newOrigin strategy)) } = e₁ at hrelay hacc ⊢
  have hnet₁ : e₁.net = e.net := by rw [hrelay]
  have hpending₁ : e₁.pendingSends = e.pendingSends := by rw [hrelay]
  have hpre : e₁.sessionPreambles[(c, m)]? = some preamble := by
    rw [hrelay]
    exact (BTreeMap.get_insert ..).trans (if_pos rfl)
  have hnone : ∀ p, e₁.openedTo[(c, m)]?.any (p ∈ ·) = false := fun p => by
    rw [hrelay, hclosed]
    rfl
  have hshift : ∀ {e' : Engine RsStrategy Wire}, AllAccepted e e' → AllAccepted e₁ e' := fun h => by
    unfold AllAccepted
    rwa [hnet₁]
  -- each subscriber is sent its `SessionOpen`
  have hopens := openEach_accepted (e := e₁) ch.subscribers.nodup_toList (fun p _ => hnone p) hpre
  rcases hr : openEach c m ch.subscribers.toList e₁ with ⟨err | _, e₂⟩ <;> rw [hr] at hacc hopens
  · obtain ⟨openedTo, heq, -⟩ := hopens (hshift hacc)
    cases heq
  · have hall' : AllAccepted e₁ (e₂.drainSession c m).2 := hshift hacc
    have hdrain : e₂.drainSession c m = ((drainLoop c m (e₂.drainFuel c m) e₂).1.getD (.ok ()),
        (drainLoop c m (e₂.drainFuel c m) e₂).2) := rfl
    have hlog : e₂.net.log <+: (e₂.drainSession c m).2.net.log := (e₂.drainSession_steps c m).log
    obtain ⟨openedTo, heq, hopened⟩ := hopens (hall'.left hlog)
    obtain ⟨-, he₂⟩ := Prod.mk.inj heq
    have hsession : e₂.session? c m
        = some ⟨RsStrategy.attachEach ch.subscribers.toList strategy, .origin⟩ := by
      rw [← hattach, he₂, hrelay]
      simp [session?]
    have hsubs : e₂.subscribersOf c = ch.subscribers.toList := by
      rw [he₂, hrelay]
      simp [subscribersOf]
    -- and the drain starts on an origin that has sent nothing yet
    have hdraining : e₂.Draining c m shards ch.subscribers.toList []
        (RsStrategy.attachEach ch.subscribers.toList strategy) :=
      ⟨hsession, hsending, hsubs, fun p hp => by rw [he₂]; exact (hopened p).mpr (.inl hp)⟩
    have hbound := hdraining.drainFuel_eq htotal
    have hsent : e₁.net.log <+: e₂.net.log := by
      rw [he₂]
      exact List.prefix_append _ _
    obtain ⟨before, routing, after, hdrained⟩ := hdraining.loop (e₂.drainFuel c m)
      (by rw [hbound]; simp) (hall'.right hsent)
    refine ⟨before, routing, after, shards, hdrained.complete, htotal, hchunks, ?_, ?_, ?_⟩
    · show (e₂.drainSession c m).1 = .ok ()
      rw [hdrain, hdrained.ok]
      rfl
    · show (e₂.drainSession c m).2.net = _
      refine hdrained.net_eq.trans ?_
      rw [he₂, hnet₁, Wire.taking_taking]
    · show (e₂.drainSession c m).2.pendingSends = _
      refine hdrained.pending_eq.trans ?_
      rw [he₂, hpending₁]

end Crates

/-! ## What each subscriber gets -/

/-- The messages to one peer. -/
def toPeer (p : PeerId) (msgs : List NetSend) : List NetSend := msgs.filter (·.destPeer = some p)

/-- What a subscriber is submitted: the open before all else, at most one routing update, each shard once. -/
structure Served (strategy : RsStrategy) (c : ChannelId) (m : MessageId) (preamble : Bytes) (p : PeerId)
    (msgs : List NetSend) : Prop where
  opened : ∃ rest, msgs = .sessionOpen p c m preamble [] :: rest ∧ ∀ msg ∈ rest, msg.isOpen = false
  routed : msgs.countP NetSend.isRouting ≤ 1
  shards : ((msgs.filterMap NetSend.dispatch?).map fun d => (d.chunkId, some d.payload)).Perm
    ((List.range strategy.totalShards).map fun idx => (idx, strategy.chunkAt idx))

section Messages

variable {peers : List PeerId} {p : PeerId} {routing : Option BitMap}

/-- The chunks of a batch are the batch. -/
theorem filterMap_message (ds : List (ChunkDispatch Nat)) :
    (ds.map (·.message c m)).filterMap NetSend.dispatch? = ds := by
  rw [List.filterMap_map]
  exact List.filterMap_some

/-- A peer is sent the dispatches that are its own. -/
theorem toPeer_message (p : PeerId) (ds : List (ChunkDispatch Nat)) :
    toPeer p (ds.map (·.message c m)) = (ds.filter (·.peer = p)).map (·.message c m) := by
  rw [toPeer, List.filter_map]
  congr 1
  exact List.filter_congr fun d _ => by simp [ChunkDispatch.message, NetSend.destPeer]

/-- One message to each of these peers. -/
theorem toPeer_each {f : PeerId → NetSend} (hf : ∀ q, (f q).destPeer = some q)
    (hnodup : peers.Nodup) (hp : p ∈ peers) : toPeer p (peers.map f) = [f p] := by
  have hfilter : peers.filter ((fun msg => decide (msg.destPeer = some p)) ∘ f) = [p] := by
    rw [List.filter_congr (q := fun q => decide (q = p)) fun q _ => by simp [hf], List.filter_eq,
      List.count_eq_one_of_mem hnodup hp]
    rfl
  rw [toPeer, List.filter_map, hfilter, List.map_singleton]

/-- A round sends each of its peers one routing update at most. -/
theorem toPeer_routingTo (c : ChannelId) (m : MessageId) (routing : Option BitMap)
    (hnodup : peers.Nodup) (hp : p ∈ peers) :
    ∃ sent, toPeer p (routingTo c m peers routing) = sent ∧ sent.length ≤ 1
      ∧ ∀ msg ∈ sent, msg.isOpen = false ∧ msg.dispatch? = none := by
  cases routing with
  | none => exact ⟨[], rfl, by simp, by simp⟩
  | some routing =>
    refine ⟨_, toPeer_each (fun _ => rfl) hnodup hp, le_rfl, fun msg hmsg => ?_⟩
    rw [List.mem_singleton.mp hmsg]
    exact ⟨rfl, rfl⟩

/-- Everything a publish submits is of its message. -/
theorem sessionKey_of_mem {preamble : Bytes} {before after : List (ChunkDispatch Nat)} {msg : NetSend}
    (hmsg : msg ∈ peers.map (fun p => .sessionOpen p c m preamble [])
      ++ (before.map (·.message c m) ++ (routingTo c m peers routing ++ after.map (·.message c m)))) :
    msg.sessionKey? = some (c, m) := by
  simp only [List.mem_append, List.mem_map] at hmsg
  rcases hmsg with ⟨p, -, rfl⟩ | ⟨d, -, rfl⟩ | hrouting | ⟨d, -, rfl⟩
  · rfl
  · rfl
  · cases routing with
    | none => cases hrouting
    | some routing =>
      obtain ⟨p, -, rfl⟩ := List.mem_map.mp hrouting
      rfl
  · rfl

/-- The messages of a publish, chunks first: those are the dispatches. -/
theorem dispatches_of_sent {preamble : Bytes} {before after : List (ChunkDispatch Nat)} :
    (peers.map (fun p => NetSend.sessionOpen p c m preamble [])
      ++ (before.map (·.message c m) ++ (routingTo c m peers routing
        ++ after.map (·.message c m)))).filterMap NetSend.dispatch? = before ++ after := by
  have hopens : (peers.map fun p => NetSend.sessionOpen p c m preamble []).filterMap NetSend.dispatch?
      = [] := by
    rw [List.filterMap_map]
    exact List.filterMap_eq_nil_iff.mpr fun _ _ => rfl
  have hroutes : (routingTo c m peers routing).filterMap NetSend.dispatch? = [] := by
    cases routing with
    | none => rfl
    | some routing =>
      rw [routingTo, List.filterMap_map]
      exact List.filterMap_eq_nil_iff.mpr fun _ _ => rfl
  simp only [List.filterMap_append, hopens, hroutes, filterMap_message, List.nil_append]

/-- What one subscriber gets of the messages of a publish. -/
theorem served_of_sent {preamble : Bytes} {before after : List (ChunkDispatch Nat)} {strategy : RsStrategy}
    {s : RsStrategy} {shards : List Bytes} (hs : s.Sending shards peers (before ++ after))
    (hnil : s.pollChunks.1 = []) (htotal : strategy.totalShards = shards.length)
    (hchunks : ∀ idx, strategy.chunkAt idx = shards[idx]?) (hnodup : peers.Nodup) (hp : p ∈ peers) :
    Served strategy c m preamble p (toPeer p (peers.map (fun p => .sessionOpen p c m preamble [])
      ++ (before.map (·.message c m) ++ (routingTo c m peers routing ++ after.map (·.message c m))))) := by
  obtain ⟨routes, hroutes, hcount, hkinds⟩ := toPeer_routingTo c m routing hnodup hp
  have hsplit : toPeer p (peers.map (fun p => NetSend.sessionOpen p c m preamble [])
      ++ (before.map (·.message c m) ++ (routingTo c m peers routing ++ after.map (·.message c m))))
      = .sessionOpen p c m preamble [] :: ((before.filter (·.peer = p)).map (·.message c m)
        ++ (routes ++ (after.filter (·.peer = p)).map (·.message c m))) := by
    have hopen := toPeer_each (f := fun p => NetSend.sessionOpen p c m preamble []) (fun _ => rfl)
      hnodup hp
    have happend : ∀ l l', toPeer p (l ++ l') = toPeer p l ++ toPeer p l' :=
      fun l l' => List.filter_append ..
    rw [happend, happend, happend, hopen, toPeer_message, toPeer_message, hroutes]
    rfl
  have hmessage : ∀ ds : List (ChunkDispatch Nat), ∀ msg ∈ ds.map (·.message c m),
      msg.isOpen = false ∧ msg.isRouting = false := by
    intro ds msg hmsg
    obtain ⟨d, -, rfl⟩ := List.mem_map.mp hmsg
    exact ⟨rfl, rfl⟩
  have hnone : ∀ ds : List (ChunkDispatch Nat), (ds.map (·.message c m)).countP NetSend.isRouting = 0 :=
    fun ds => List.countP_eq_zero.mpr fun msg hmsg => by simp [(hmessage ds msg hmsg).2]
  rw [hsplit]
  refine ⟨⟨_, rfl, fun msg hmsg => ?_⟩, ?_, ?_⟩
  · simp only [List.mem_append] at hmsg
    rcases hmsg with hmsg | hmsg | hmsg
    · exact (hmessage _ msg hmsg).1
    · exact (hkinds msg hmsg).1
    · exact (hmessage _ msg hmsg).1
  · rw [List.countP_cons_of_neg (by simp [NetSend.isRouting]), List.countP_append, List.countP_append,
      hnone, hnone]
    have hle := List.countP_le_length (p := NetSend.isRouting) (l := routes)
    omega
  · have hdispatches : routes.filterMap NetSend.dispatch? = [] :=
      List.filterMap_eq_nil_iff.mpr fun msg hmsg => (hkinds msg hmsg).2
    rw [List.filterMap_cons_none rfl, List.filterMap_append, List.filterMap_append, filterMap_message,
      filterMap_message, hdispatches, List.nil_append, ← List.filter_append, htotal]
    simp only [hchunks]
    exact hs.perm_of_nil hnil hp

end Messages

/-! ## Tokens -/

/-- With distinct tokens every dispatch is pending. -/
theorem get_addPending {pending : BTreeMap (ChannelId × MessageId × DispatchHandle) PeerId}
    {ds : List (ChunkDispatch Nat)} (hnodup : (ds.map ChunkDispatch.handle).Nodup)
    {d : ChunkDispatch Nat} (hd : d ∈ ds) : (addPending c m pending ds)[(c, m, d.handle)]? = some d.peer := by
  have hkeep : ∀ (ds : List (ChunkDispatch Nat)) pending, d.handle ∉ ds.map ChunkDispatch.handle →
      (addPending c m pending ds)[(c, m, d.handle)]? = pending[(c, m, d.handle)]? := by
    intro ds
    induction ds with
    | nil => exact fun _ _ => rfl
    | cons d' ds ih =>
      intro pending hfresh
      rw [List.map_cons, List.mem_cons, not_or] at hfresh
      refine (ih _ hfresh.2).trans ?_
      rw [BTreeMap.get_insert, if_neg (by simpa using fun h => hfresh.1 h.symm)]
  induction ds generalizing pending with
  | nil => cases hd
  | cons d' ds ih =>
    obtain ⟨hfresh, hrest⟩ := List.nodup_cons.mp hnodup
    rcases List.mem_cons.mp hd with rfl | hd
    · exact (hkeep ds _ hfresh).trans ((BTreeMap.get_insert ..).trans (if_pos rfl))
    · exact ih hrest hd

/-! ## The whole call -/

section Crates

variable [Crates]

/-- The publish is complete: it succeeds, every subscriber is served, and the chunk tokens, one for each
shard and subscriber, are distinct and pending. -/
structure PublishComplete (e : Engine RsStrategy Wire) (c : ChannelId) (m : MessageId)
    (strategy : RsStrategy) (preamble : Bytes) : Prop where
  ok : (e.publish c m strategy preamble).1 = .ok ()
  served : ∀ p ∈ e.subscribersOf c, Served strategy c m preamble p
    (toPeer p (submittedSince e (e.publish c m strategy preamble).2 (c, m)))
  count : ((submittedSince e (e.publish c m strategy preamble).2 (c, m)).filterMap
    NetSend.dispatch?).length = strategy.totalShards * (e.subscribersOf c).length
  distinct : (((submittedSince e (e.publish c m strategy preamble).2 (c, m)).filterMap
    NetSend.dispatch?).map ChunkDispatch.handle).Nodup
  pending : ∀ d ∈ (submittedSince e (e.publish c m strategy preamble).2 (c, m)).filterMap
    NetSend.dispatch?, (e.publish c m strategy preamble).2.pendingSends[(c, m, d.handle)]? = some d.peer

/-- **When a publish is complete.**  In every state a run reaches, for every hosted channel and every free
message id, and for every freshly built origin: if all sends of the call are accepted, the publish is
complete exactly when there are no more shards for all subscribers together than 64-bit tokens. -/
theorem run_publishComplete_iff (hrs : RsCorrect) (localPeer : PeerId) (net : Wire) (delivered : Sink)
    (config : EngineConfig) (clock : Clock) (inputs : List (Input RsStrategy)) {e : Engine RsStrategy Wire}
    (he : e = (withConfig localPeer net delivered config clock).run inputs) {c : ChannelId}
    {m : MessageId} (hhosted : c ∈ e.channels) (hfree : e.session? c m = none) {payload : Bytes}
    {rsConfig : RsConfig} {seed : UInt64} {strategy : RsStrategy} (preamble : Bytes)
    (hnew : RsStrategy.newOriginWithSeed payload rsConfig seed = .ok strategy)
    (hacc : AllAccepted e (e.publish c m strategy preamble).2) :
    PublishComplete e c m strategy preamble
      ↔ strategy.totalShards * (e.subscribersOf c).length ≤ 2 ^ 64 := by
  obtain ⟨ch, hch⟩ := (BTreeMap.mem_iff_get _ _).mp hhosted
  have hbalanced : (e.ledger (c, m)).Balanced := he ▸ run_balanced localPeer net delivered config clock
    inputs (c, m)
  -- an open record belongs to a live session, and there is none
  have hclosed : e.openedTo[(c, m)]? = none := by
    rw [← Option.not_isSome_iff_eq_none]
    intro hopened
    have hlive : (e.session? c m).isSome := hbalanced.live_of_opened hopened
    rw [hfree] at hlive
    cases hlive
  obtain ⟨before, routing, after, shards, ⟨s, hs, hnil⟩, htotal, hchunks, hok, hnet, hpending⟩ :=
    publish_accepted hrs hch hfree hclosed preamble hnew hacc
  have hsubs : e.subscribersOf c = ch.subscribers.toList := by
    rw [subscribersOf, hch]
  have hnodup : ch.subscribers.toList.Nodup := ch.subscribers.nodup_toList
  -- what went out in this call: the opens, the first drain, then the second
  have hsubmitted : submittedSince e (e.publish c m strategy preamble).2 (c, m)
      = ch.subscribers.toList.map (fun p => .sessionOpen p c m preamble [])
        ++ (before.map (·.message c m) ++ (routingTo c m ch.subscribers.toList routing
          ++ after.map (·.message c m))) := by
    rw [submittedSince, hnet, Wire.taking, List.drop_left, List.map_map]
    refine (congrArg _ (List.map_id _)).trans (List.filter_eq_self.mpr fun msg hmsg => ?_)
    exact decide_eq_true (sessionKey_of_mem hmsg)
  have hlength : (before ++ after).length = strategy.totalShards * (e.subscribersOf c).length := by
    rw [hs.length_of_nil hnil hnodup, htotal, hsubs]
  -- distinct tokens are all the claim can lose, and they wrap after `2^64` dispatches
  rw [← hlength, ← hs.handles_nodup_iff]
  constructor
  · intro h
    have hdistinct := h.distinct
    rwa [hsubmitted, dispatches_of_sent] at hdistinct
  · intro hdistinct
    refine ⟨hok, fun p hp => ?_, ?_, ?_, fun d hd => ?_⟩
    · rw [hsubmitted]
      exact served_of_sent hs hnil htotal hchunks hnodup (hsubs ▸ hp)
    · rw [hsubmitted, dispatches_of_sent]
      exact hlength
    · rw [hsubmitted, dispatches_of_sent]
      exact hdistinct
    · rw [hsubmitted, dispatches_of_sent] at hd
      rw [hpending]
      exact get_addPending hdistinct hd

end Crates

section OneShard

attribute [local instance] oneShard

/-- Every answer so far and from now on is an accept. -/
def AlwaysAccepts (w : Wire) : Prop := w.answer = (fun _ _ => .ok ()) ∧ ∀ sent ∈ w.log, sent.accepted

theorem alwaysAccepts_send (w : Wire) (msg : NetSend) (h : AlwaysAccepts w) :
    AlwaysAccepts (Net.send w msg).2 := by
  refine ⟨h.1, fun sent hsent => ?_⟩
  rcases List.mem_append.mp hsent with hsent | hsent
  · exact h.2 sent hsent
  · rw [List.mem_singleton.mp hsent, h.1]
    rfl

/-- A channel is hosted, and two peers subscribe. -/
def hostForTwo : List (Input RsStrategy) :=
  [.subscribe "c" (rsRelayFactory {} fun _ => 7), .event (.subscribe 1 "c"), .event (.subscribe 2 "c")]

/-- A transport that takes everything accepts every message. -/
theorem run_allAccepted (inputs : List (Input RsStrategy)) (c : ChannelId) (m : MessageId)
    (strategy : RsStrategy) (preamble : Bytes) :
    AllAccepted ((nodeTicking 0).run inputs)
      (((nodeTicking 0).run inputs).publish c m strategy preamble).2 := by
  have hrun : AlwaysAccepts ((nodeTicking 0).run inputs).net :=
    run_induct (P := fun e => AlwaysAccepts e.net) (fun e i _ he => step_net alwaysAccepts_send i he)
      ⟨rfl, by simp [nodeTicking, withConfig]⟩
  have hpublish : AlwaysAccepts (((nodeTicking 0).run inputs).publish c m strategy preamble).2.net :=
    step_net alwaysAccepts_send (.publish c m strategy preamble) hrun
  exact fun sent hsent => hpublish.2 sent (List.mem_of_mem_drop hsent)

/-- Both shards go to both subscribers. -/
theorem run_publishComplete_both : PublishComplete ((nodeTicking 0).run hostForTwo) "c" "m" OneShard.origin
    (OneShard.preambleBytes OneShard.preamble) := by
  have hfree : (((nodeTicking 0).run hostForTwo).session? "c" "m").isNone := by decide +kernel
  exact (run_publishComplete_iff OneShard.rsCorrect 0 _ _ _ _ hostForTwo rfl (by decide +kernel)
    (Option.isNone_iff_eq_none.mp hfree) _ OneShard.newOrigin_eq
    (run_allAccepted hostForTwo "c" "m" _ _)).mpr (by decide +kernel)

end OneShard

end Engine

end Ethp2p
