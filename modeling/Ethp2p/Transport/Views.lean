/-
# Ethp2p.Transport.Views — a node as each of its connections has it.

A run of a node interleaves the tasks of all its connections.  A `View` is what concerns one of them: the
connection, whether its sender is in the routing table, the events of its peer so far, the messages accepted for
that peer, and the sessions recorded here.  As long as the id counter does not wrap, a step of the node is one step
of a view, and none of the others (`Step.view`); so what every step of a view keeps holds of every connection after
every run (`tasks_views`).
-/
import Ethp2p.Transport.Registry

namespace Ethp2p

/-! ## Views -/

/-- The message, if it was accepted for this peer. -/
def Sent.acceptedFor (peer : PeerId) (sent : Sent) : Option NetSend :=
  if sent.accepted && sent.msg.destPeer = some peer then some sent.msg else none

/-- The session that a local command recorded. -/
def Sent.recorded (sent : Sent) : Option (ChannelId × MessageId) :=
  match sent.msg with
  | .sessionReconstructed channel messageId => some (channel, messageId)
  | _ => none

theorem Sent.acceptedFor_of_error {msg : NetSend} {err : NetError} (peer : PeerId) :
    Sent.acceptedFor peer ⟨msg, .error err⟩ = none := rfl

/-- An accepted message is accepted for its peer. -/
theorem Sent.acceptedFor_of_ok {msg : NetSend} (peer : PeerId) :
    Sent.acceptedFor peer ⟨msg, .ok ()⟩ = if msg.destPeer = some peer then some msg else none := by
  simp [acceptedFor, accepted, Except.isOk, Except.toBool]

/-- A message to a peer records no session. -/
theorem Sent.recorded_of_destPeer {msg : NetSend} {answer : Except NetError Unit} {peer : PeerId}
    (h : msg.destPeer = some peer) : Sent.recorded ⟨msg, answer⟩ = none := by
  cases msg with
  | sessionReconstructed => cases h
  | handshake | subscribe | unsubscribe | sessionOpen | routingUpdate | chunk => rfl

/-- What concerns one connection. -/
structure View where
  conn : Conn
  routed : Bool
  events : List NetEvent
  accepted : List NetSend
  recorded : List (ChannelId × MessageId)

/-- The view of connection `j`, after the calls of `send` in the log. -/
def QuicNet.view (net : QuicNet) (log : List Sent) (j : Nat) (conn : Conn) : View where
  conn := conn
  routed := net.peerSenders[conn.peer]? = some j
  events := net.inbound.filter fun ev => ev.sender = conn.peer
  accepted := log.filterMap (Sent.acceptedFor conn.peer)
  recorded := log.filterMap Sent.recorded

/-- The view of a connection that was just assigned its id. -/
def View.new (peer : PeerId) (expected : Option String) (recorded : List (ChannelId × MessageId)) : View where
  conn := { peer, expected }
  routed := false
  events := []
  accepted := []
  recorded := recorded

section Streams

variable [Message Bcast] [Message Sess] [Message Header] [Message ChunkIdent]

/-- What a step of a node is to one of its connections. -/
inductive View.Step (v : View) : View → Prop
  | kept : Step v v
  | registered (hphase : v.conn.phase = .assigned) :
      Step v { v with conn := { v.conn with phase := .registered }, routed := true }
  | moved {conn events} (hmove : Conn.Move (· ∈ v.recorded) v.conn conn events) :
      Step v { v with conn, events := v.events ++ events }
  | exited (hqueue : v.conn.backlog = []) (hrouted : v.routed = false) (hphase : v.conn.phase = .running) :
      Step v { v with conn := { v.conn with pumping := false } }
  | enqueued {msg} (hdst : msg.destPeer = some v.conn.peer)
      (hpumping : v.conn.pumping = true) (hroom : v.conn.queue.length < QuicNet.perPeerOutboundQueue) :
      Step v { v with
        conn := { v.conn with queue := v.conn.queue ++ [msg] }, accepted := v.accepted ++ [msg] }
  | recorded {key} : Step v { v with recorded := v.recorded ++ [key] }
  | lost (hphase : v.conn.phase = .running) (haccepting : v.conn.accepting = true) :
      Step v { v with conn := { v.conn with accepting := false }, routed := false }

end Streams

/-! ## Ids -/

namespace QuicNet

/-- The node has a connection of this peer. -/
def Knows (net : QuicNet) (peer : PeerId) : Prop :=
  ∃ (j : Nat) (conn : Conn), net.conns[j]? = some conn ∧ conn.peer = peer

/-- Events and accepted messages are of peers of the node, and what the readers take for reconstructed was
recorded. -/
structure Named (net : QuicNet) (log : List Sent) : Prop where
  events : ∀ ev ∈ net.inbound, net.Knows ev.sender
  accepted : ∀ sent ∈ log, ∀ peer, sent.acceptedFor peer ≠ none → net.Knows peer
  recorded : ∀ key, net.reset.isReconstructed key = true → key ∈ log.filterMap Sent.recorded

/-- A new node names nobody. -/
theorem new_named : Named {} [] where
  events ev h := by cases h
  accepted sent h := by cases h
  recorded key h := by cases h

/-- Ids are distinct as long as the counter does not wrap. -/
theorem idOf_inj {i j : Nat} (hi : i < 2 ^ 64) (hj : j < 2 ^ 64) (h : idOf i = idOf j) : i = j := by
  have hnat := congrArg UInt64.toNat h
  simp only [idOf, UInt64.toNat_ofNat'] at hnat
  omega

variable {net net' : QuicNet} {log : List Sent} {sent : Option Sent} {j : Nat} {conn conn' : Conn}

/-- No two connections have the same id, as long as the counter does not wrap. -/
theorem Wired.peer_inj (h : net.Wired) (hids : net.conns.length ≤ 2 ^ 64) {i : Nat}
    (hi : net.conns[i]? = some conn) (hj : net.conns[j]? = some conn') (hpeer : conn.peer = conn'.peer) : i = j := by
  have hi' := (List.getElem?_eq_some_iff.mp hi).1
  have hj' := (List.getElem?_eq_some_iff.mp hj).1
  rw [h.peers i conn hi, h.peers j conn' hj] at hpeer
  exact idOf_inj (Nat.lt_of_lt_of_le hi' hids) (Nat.lt_of_lt_of_le hj' hids) hpeer

/-- A node that replaces a connection by one of the same peer knows the same peers. -/
theorem Knows.set {peer : PeerId} (h : net.Knows peer) (hconn : net.conns[j]? = some conn)
    (hconns : net'.conns = net.conns.set j conn') (hpeer : conn'.peer = conn.peer) : net'.Knows peer := by
  obtain ⟨i, old, hold, rfl⟩ := h
  by_cases hi : j = i
  · subst hi
    obtain rfl := Option.some.inj (hconn.symm.trans hold)
    exact ⟨j, conn', by rw [hconns, conns_set hconn, if_pos rfl], hpeer⟩
  · exact ⟨i, old, by rw [hconns, conns_set hconn, if_neg hi, hold], rfl⟩

section Streams

variable [Message Bcast] [Message Sess] [Message Header] [Message ChunkIdent]

/-- A node keeps its peers. -/
theorem Step.knows (h : Step net net' sent) {peer : PeerId} (hpeer : net.Knows peer) : net'.Knows peer := by
  cases h with
  | connected =>
    obtain ⟨i, old, hold, rfl⟩ := hpeer
    refine ⟨i, old, ?_, rfl⟩
    rw [connect, List.getElem?_append_left (List.getElem?_eq_some_iff.mp hold).1, hold]
  | registered hconn | exited hconn | lost hconn => exact hpeer.set hconn rfl rfl
  | moved hconn hmove => exact hpeer.set hconn rfl hmove.peer_eq
  | enqueued _ hconn => exact hpeer.set hconn rfl rfl
  | commanded | unrouted | called | stopped | pushedBack => exact hpeer

end Streams

end QuicNet

/-! ## Recording -/

section Streams

variable [Message Bcast] [Message Sess] [Message Header] [Message ChunkIdent]

/-- What a connection may take for reconstructed. -/
theorem Conn.Move.mono {known known' : ChannelId × MessageId → Prop} {conn conn' : Conn} {events : List NetEvent}
    (h : Move known conn conn' events) (hknown : ∀ key, known key → known' key) : Move known' conn conn' events := by
  cases h with
  | announced hphase => exact .announced hphase
  | took hphase hidle hqueue => exact .took hphase hidle hqueue
  | wrote hwriting hwrite hwatched => exact .wrote hwriting hwrite hwatched
  | heard hwatched hevents => exact .heard hwatched hevents
  | accepted hphase haccepting hnew => exact .accepted hphase haccepting hnew
  | arrived hreader => exact .arrived hreader
  | emitted hreader hopen hevent => exact .emitted hreader hopen hevent
  | ended hreader hstopped =>
    exact .ended hreader (hstopped.imp_right fun ⟨key, hkey, hin⟩ => ⟨key, hkey, hknown key hin⟩)
  | reported hlost hfirst => exact .reported hlost hfirst

end Streams

/-- Evicting records adds none. -/
theorem ReconstructedTracker.evict_subset {set : Finset (ChannelId × MessageId)}
    {order : List (ChannelId × MessageId)} : (ReconstructedTracker.evict set order).set ⊆ set := by
  induction order generalizing set with
  | nil => exact Finset.Subset.refl set
  | cons old order ih =>
    rw [ReconstructedTracker.evict]
    split
    · exact ih.trans (Finset.erase_subset old set)
    · exact Finset.Subset.refl set

/-- Only the recorded key is new. -/
theorem ResetState.isReconstructed_record {reset : ResetState} {key key' : ChannelId × MessageId}
    (h : (reset.record key).isReconstructed key' = true) : key' = key ∨ reset.isReconstructed key' = true := by
  simp only [isReconstructed, decide_eq_true_eq] at h ⊢
  unfold record at h
  dsimp only at h
  split at h
  · exact .inr h
  · exact Finset.mem_insert.mp (ReconstructedTracker.evict_subset h)

/-! ## Steps -/

namespace QuicNet

variable {net net' : QuicNet} {log : List Sent} {sent : Option Sent} {j : Nat} {conn conn' : Conn}

section Streams

variable [Message Bcast] [Message Sess] [Message Header] [Message ChunkIdent]

/-- A step takes no connections away. -/
theorem Step.length_le (h : Step net net' sent) : net.conns.length ≤ net'.conns.length := by
  cases h with
  | connected =>
    rw [connect, List.length_append]
    exact Nat.le_add_right _ _
  | registered | moved | exited | enqueued | lost => exact Nat.le_of_eq List.length_set.symm
  | commanded | unrouted | called | stopped | pushedBack => exact Nat.le_refl _

/-- **Every step keeps events and messages named.** -/
theorem Step.named (h : Step net net' sent) (hw : net.Wired) (hn : net.Named log) :
    net'.Named (log ++ sent.toList) := by
  have hgrown : ∀ key, key ∈ log.filterMap Sent.recorded →
      key ∈ (log ++ sent.toList).filterMap Sent.recorded := by
    intro key hkey
    rw [List.filterMap_append]
    exact List.mem_append_left _ hkey
  have hknows : ∀ peer, net.Knows peer → net'.Knows peer := fun _ => h.knows
  have hevents : ∀ ev ∈ net.inbound, net'.Knows ev.sender := fun ev hev => hknows _ (hn.events ev hev)
  have hold : ∀ sent ∈ log, ∀ peer, sent.acceptedFor peer ≠ none → net'.Knows peer :=
    fun sent hsent peer hpeer => hknows peer (hn.accepted sent hsent peer hpeer)
  -- a refused message is accepted for nobody
  have hrefused : ∀ {msg err}, sent = some ⟨msg, .error err⟩ → ∀ s ∈ log ++ sent.toList,
      ∀ peer, s.acceptedFor peer ≠ none → net'.Knows peer := by
    rintro msg err rfl s hs peer hpeer
    rcases List.mem_append.mp hs with hs | hs
    · exact hold s hs peer hpeer
    · obtain rfl := List.mem_singleton.mp hs
      exact absurd (Sent.acceptedFor_of_error peer) hpeer
  -- a step that logs nothing only has the new connections to answer for
  cases h with
  | connected | registered | exited | called | lost =>
    exact ⟨hevents, by simpa using hold, fun key hkey => hgrown key (hn.recorded key hkey)⟩
  | @moved i conn conn' events hconn hmove =>
    refine ⟨fun ev hev => ?_, by simpa using hold, fun key hkey => hgrown key (hn.recorded key hkey)⟩
    rcases List.mem_append.mp hev with hev | hev
    · exact hevents ev hev
    · rw [hmove.sender (hw.backlog i conn hconn) ev hev]
      exact hknows _ ⟨i, conn, hconn, rfl⟩
  | @commanded channel messageId hfree =>
    refine ⟨hevents, fun s hs peer hpeer => ?_, fun key hkey => ?_⟩
    · rcases List.mem_append.mp hs with hs | hs
      · exact hold s hs peer hpeer
      · obtain rfl := List.mem_singleton.mp hs
        exact absurd rfl hpeer
    · rcases ResetState.isReconstructed_record hkey with rfl | hkey
      · rw [List.filterMap_append]
        exact List.mem_append_right _ (List.mem_singleton.mpr rfl)
      · exact hgrown key (hn.recorded key hkey)
  | unrouted | stopped | pushedBack =>
    exact ⟨hevents, hrefused rfl, fun key hkey => hgrown key (hn.recorded key hkey)⟩
  | @enqueued msg dst i conn hsending hconn hpumping hroom =>
    refine ⟨hevents, fun s hs peer hpeer => ?_, fun key hkey => hgrown key (hn.recorded key hkey)⟩
    rcases List.mem_append.mp hs with hs | hs
    · exact hold s hs peer hpeer
    · obtain rfl := List.mem_singleton.mp hs
      obtain ⟨hdst, old, hold', rfl, -⟩ := hw.sending msg dst i hsending
      rw [Sent.acceptedFor_of_ok, hdst] at hpeer
      have hto : old.peer = peer := by
        by_contra hne
        exact hpeer (if_neg fun h => hne (Option.some.inj h))
      rw [← hto]
      exact hknows _ ⟨i, old, hold', rfl⟩

/-- The node's step to `net'`, which ended this call of `send` if any, is a step of the view of connection
`j`. -/
def StepsView (net : QuicNet) (log : List Sent) (net' : QuicNet) (sent : Option Sent) (j : Nat) (conn' : Conn) :
    Prop :=
  ∃ conn : Conn, net.conns[j]? = some conn
    ∧ View.Step (net.view log j conn) (net'.view (log ++ sent.toList) j conn')

/-- A step that is none of the view's. -/
theorem unchanged (hconn : net.conns[j]? = some conn)
    (hrouted : net'.peerSenders[conn.peer]? = net.peerSenders[conn.peer]?)
    (hevents : (net'.inbound.filter fun ev => ev.sender = conn.peer)
      = net.inbound.filter fun ev => ev.sender = conn.peer)
    (haccepted : sent.toList.filterMap (Sent.acceptedFor conn.peer) = [])
    (hrecorded : sent.toList.filterMap Sent.recorded = []) : StepsView net log net' sent j conn := by
  refine ⟨conn, hconn, ?_⟩
  have hview : net'.view (log ++ sent.toList) j conn = net.view log j conn := by
    simp only [view, hrouted, hevents, List.filterMap_append, haccepted, hrecorded, List.append_nil]
  rw [hview]
  exact .kept

omit [Message Bcast] [Message Sess] [Message Header] [Message ChunkIdent] in
/-- When a connection is replaced, each of the others stays, and is of another peer. -/
theorem Wired.set_cases (hw : net.Wired) {i : Nat} {conn₁ : Conn} (hids : (net.conns.set i conn₁).length ≤ 2 ^ 64)
    (hget : net.conns[i]? = some conn) (hconn : (net.conns.set i conn₁)[j]? = some conn') :
    i = j ∧ conn₁ = conn' ∨ net.conns[j]? = some conn' ∧ conn.peer ≠ conn'.peer := by
  rw [conns_set hget] at hconn
  rw [List.length_set] at hids
  split at hconn
  case isTrue hj => exact .inl ⟨hj, Option.some.inj hconn⟩
  case isFalse hj => exact .inr ⟨hconn, fun hpeer => hj (hw.peer_inj hids hget hconn hpeer)⟩

omit [Message Bcast] [Message Sess] [Message Header] [Message ChunkIdent] in
/-- New events are all of one peer, and so are seen by one view only. -/
theorem filter_sender_append {evs events : List NetEvent} {peer src : PeerId} (h : ∀ ev ∈ events, ev.sender = src) :
    ((evs ++ events).filter fun ev => ev.sender = peer)
      = (evs.filter fun ev => ev.sender = peer) ++ if src = peer then events else [] := by
  rw [List.filter_append]
  congr 1
  split
  case isTrue hpeer =>
    subst hpeer
    exact List.filter_eq_self.mpr fun ev hev => by simpa using h ev hev
  case isFalse hpeer =>
    refine List.filter_eq_nil_iff.mpr fun ev hev => ?_
    rw [h ev hev]
    simpa using hpeer

omit [Message Bcast] [Message Sess] [Message Header] [Message ChunkIdent] in
/-- The view of a connection that was just assigned its id is fresh: nobody knows the id yet. -/
theorem view_connect (hw : net.Wired) (hn : net.Named log) {expected : Option String}
    (hids : (net.connect expected).conns.length ≤ 2 ^ 64) :
    (net.connect expected).view log net.conns.length { peer := net.nextPeerId, expected }
      = View.new net.nextPeerId expected (log.filterMap Sent.recorded) := by
  have hnew : ¬ net.Knows net.nextPeerId := by
    rintro ⟨i, old, hold, hpeer⟩
    have hi := (List.getElem?_eq_some_iff.mp hold).1
    rw [connect, List.length_append, List.length_singleton] at hids
    rw [hw.peers i old hold, hw.next] at hpeer
    exact absurd (idOf_inj (by omega) (by omega) hpeer) (Nat.ne_of_lt hi)
  have hrouted : net.peerSenders[net.nextPeerId]? ≠ some net.conns.length := by
    intro hsome
    obtain ⟨old, hold, hpeer, -⟩ := hw.routes _ _ hsome
    exact hnew ⟨_, old, hold, hpeer⟩
  have hevents : (net.inbound.filter fun ev => ev.sender = net.nextPeerId) = [] := by
    refine List.filter_eq_nil_iff.mpr fun ev hev hsender => ?_
    exact hnew (of_decide_eq_true hsender ▸ hn.events ev hev)
  have haccepted : log.filterMap (Sent.acceptedFor net.nextPeerId) = [] := by
    refine List.filterMap_eq_nil_iff.mpr fun sent hsent => ?_
    by_contra hsome
    exact hnew (hn.accepted sent hsent _ hsome)
  simp only [QuicNet.view, View.new, connect, hrouted, hevents, haccepted, decide_false]

/-- A connection is registered: its own view is routed now, and the routes of the others stay. -/
theorem stepsView_registered (hw : net.Wired) {i : Nat}
    (hids : (net.conns.set i { conn with phase := .registered }).length ≤ 2 ^ 64)
    (hget : net.conns[i]? = some conn) (hphase : conn.phase = .assigned)
    (hconn : (net.conns.set i { conn with phase := .registered })[j]? = some conn') :
    StepsView net log { net with
      peerSenders := net.peerSenders.insert conn.peer i
      conns := net.conns.set i { conn with phase := .registered } } none j conn' := by
  rcases hw.set_cases hids hget hconn with ⟨rfl, rfl⟩ | ⟨hconn, hne⟩
  · have hrouted : (net.peerSenders.insert conn.peer i)[conn.peer]? = some i := by
      rw [BTreeMap.get_insert, if_pos rfl]
    have hstep := View.Step.registered (v := net.view log i conn) hphase
    refine ⟨conn, hget, ?_⟩
    simpa only [QuicNet.view, hrouted, decide_true, Option.toList_none, List.append_nil] using hstep
  · refine unchanged hconn ?_ rfl rfl rfl
    rw [BTreeMap.get_insert, if_neg hne]

/-- A connection moves: its own view takes the move, with the events it raised, and the others see none of
these. -/
theorem stepsView_moved (hw : net.Wired) (hn : net.Named log) {i : Nat} {conn₁ : Conn} {events : List NetEvent}
    (hids : (net.conns.set i conn₁).length ≤ 2 ^ 64) (hget : net.conns[i]? = some conn)
    (hmove : Conn.Move (fun key => net.reset.isReconstructed key = true) conn conn₁ events)
    (hconn : (net.conns.set i conn₁)[j]? = some conn') :
    StepsView net log { net with conns := net.conns.set i conn₁, inbound := net.inbound ++ events } none j
      conn' := by
  have hsender := hmove.sender (hw.backlog i conn hget)
  rcases hw.set_cases hids hget hconn with ⟨rfl, rfl⟩ | ⟨hconn, hne⟩
  · have hpeer := hmove.peer_eq
    have hmove' : Conn.Move (· ∈ (net.view log i conn).recorded) conn conn₁ events :=
      hmove.mono fun key hkey => hn.recorded key hkey
    have hstep := View.Step.moved (v := net.view log i conn) hmove'
    refine ⟨conn, hget, ?_⟩
    simpa only [QuicNet.view, hpeer, filter_sender_append hsender, if_pos, Option.toList_none,
      List.append_nil] using hstep
  · refine unchanged hconn rfl ?_ rfl rfl
    rw [filter_sender_append hsender, if_neg hne, List.append_nil]

/-- A writer exits, with nothing left to write and nobody to route to it. -/
theorem stepsView_exited (hw : net.Wired) {i : Nat}
    (hids : (net.conns.set i { conn with pumping := false }).length ≤ 2 ^ 64) (hget : net.conns[i]? = some conn)
    (hqueue : conn.queue = []) (hidle : conn.writing = none) (hrouted : net.peerSenders[conn.peer]? ≠ some i)
    (hphase : conn.phase = .running)
    (hconn : (net.conns.set i { conn with pumping := false })[j]? = some conn') :
    StepsView net log { net with conns := net.conns.set i { conn with pumping := false } } none j conn' := by
  rcases hw.set_cases hids hget hconn with ⟨rfl, rfl⟩ | ⟨hconn, -⟩
  · have hempty : conn.backlog = [] := by rw [Conn.backlog, hidle, hqueue]; rfl
    have hstep := View.Step.exited (v := net.view log i conn) hempty (decide_eq_false hrouted) hphase
    refine ⟨conn, hget, ?_⟩
    simpa only [QuicNet.view, Option.toList_none, List.append_nil] using hstep
  · exact unchanged hconn rfl rfl rfl rfl

/-- A session is recorded as reconstructed: every view sees it. -/
theorem stepsView_commanded {channel : ChannelId} {messageId : MessageId} (hconn : net.conns[j]? = some conn') :
    StepsView net log { net with reset := net.reset.record (channel, messageId) }
      (some ⟨.sessionReconstructed channel messageId, .ok ()⟩) j conn' := by
  have hstep : View.Step (net.view log j conn') { net.view log j conn' with
      recorded := (net.view log j conn').recorded ++ [(channel, messageId)] } := .recorded
  have haccepted : Sent.acceptedFor conn'.peer ⟨.sessionReconstructed channel messageId, .ok ()⟩ = none := rfl
  refine ⟨conn', hconn, ?_⟩
  simpa only [QuicNet.view, Option.toList_some, List.filterMap_append, List.filterMap_cons, List.filterMap_nil,
    haccepted, Sent.recorded, List.append_nil] using hstep

/-- A message is enqueued: it is accepted for the one connection whose queue it joins. -/
theorem stepsView_enqueued (hw : net.Wired) {i : Nat} {msg : NetSend} {dst : PeerId}
    (hids : (net.conns.set i { conn with queue := conn.queue ++ [msg] }).length ≤ 2 ^ 64)
    (hsending : net.sending = some (msg, dst, i)) (hget : net.conns[i]? = some conn)
    (hpumping : conn.pumping = true) (hroom : conn.queue.length < perPeerOutboundQueue)
    (hconn : (net.conns.set i { conn with queue := conn.queue ++ [msg] })[j]? = some conn') :
    StepsView net log { net with
      sending := none
      conns := net.conns.set i { conn with queue := conn.queue ++ [msg] } } (some ⟨msg, .ok ()⟩) j conn' := by
  obtain ⟨hdst, old, hold, hpeer, -⟩ := hw.sending _ _ _ hsending
  obtain rfl := Option.some.inj (hget.symm.trans hold)
  have hrecorded : Sent.recorded ⟨msg, .ok ()⟩ = none := Sent.recorded_of_destPeer hdst
  rcases hw.set_cases hids hget hconn with ⟨rfl, rfl⟩ | ⟨hconn, hne⟩
  · have haccepted : Sent.acceptedFor conn.peer ⟨msg, .ok ()⟩ = some msg := by
      rw [Sent.acceptedFor_of_ok, hdst, hpeer, if_pos rfl]
    have hstep := View.Step.enqueued (v := net.view log i conn) (hdst.trans (congrArg some hpeer.symm))
      hpumping hroom
    refine ⟨conn, hget, ?_⟩
    simpa only [QuicNet.view, Option.toList_some, List.filterMap_append, List.filterMap_cons, List.filterMap_nil,
      haccepted, hrecorded, List.append_nil] using hstep
  · have haccepted : Sent.acceptedFor conn'.peer ⟨msg, .ok ()⟩ = none := by
      rw [Sent.acceptedFor_of_ok, hdst, ← hpeer, if_neg fun h => hne (Option.some.inj h)]
    exact unchanged hconn rfl rfl (by simp [haccepted]) (by simp [hrecorded])

/-- A connection is lost: its route is taken back, and no other's. -/
theorem stepsView_lost (hw : net.Wired) {i : Nat}
    (hids : (net.conns.set i { conn with accepting := false }).length ≤ 2 ^ 64)
    (hget : net.conns[i]? = some conn) (hphase : conn.phase = .running) (haccepting : conn.accepting = true)
    (hconn : (net.conns.set i { conn with accepting := false })[j]? = some conn') :
    StepsView net log { net with
      peerSenders := net.peerSenders.erase conn.peer
      conns := net.conns.set i { conn with accepting := false } } none j conn' := by
  rcases hw.set_cases hids hget hconn with ⟨rfl, rfl⟩ | ⟨hconn, hne⟩
  · have hrouted : (net.peerSenders.erase conn.peer)[conn.peer]? = none := by
      rw [BTreeMap.get_erase, if_pos rfl]
    have hstep := View.Step.lost (v := net.view log i conn) hphase haccepting
    refine ⟨conn, hget, ?_⟩
    simpa only [QuicNet.view, hrouted, reduceCtorEq, decide_false, Option.toList_none, List.append_nil] using hstep
  · refine unchanged hconn ?_ rfl rfl rfl
    rw [BTreeMap.get_erase, if_neg hne]

/-- **A step of a node** is a step of the view of each of its connections, and a new one has a fresh view. -/
theorem Step.view (h : Step net net' sent) (hw : net.Wired) (hn : net.Named log)
    (hids : net'.conns.length ≤ 2 ^ 64) (hconn : net'.conns[j]? = some conn') :
    StepsView net log net' sent j conn'
    ∨ ∃ expected, net'.view (log ++ sent.toList) j conn'
        = View.new conn'.peer expected (log.filterMap Sent.recorded) := by
  cases h with
  | @connected expected =>
    -- `connect` leaves the old connections alone and puts a fresh one behind them
    rcases Nat.lt_or_ge j net.conns.length with hlt | hge
    · rw [connect, List.getElem?_append_left hlt] at hconn
      exact .inl (unchanged hconn rfl rfl rfl rfl)
    · obtain rfl : j = net.conns.length := by
        have hlt := (List.getElem?_eq_some_iff.mp hconn).1
        rw [connect, List.length_append, List.length_singleton] at hlt
        omega
      obtain rfl : { peer := net.nextPeerId, expected } = conn' := by
        rw [connect, List.getElem?_concat_length] at hconn
        exact Option.some.inj hconn
      rw [Option.toList_none, List.append_nil]
      exact .inr ⟨expected, view_connect hw hn hids⟩
  | registered hget hphase => exact .inl (stepsView_registered hw hids hget hphase hconn)
  | moved hget hmove => exact .inl (stepsView_moved hw hn hids hget hmove hconn)
  | exited hget hqueue hidle hrouted _ hphase =>
    exact .inl (stepsView_exited hw hids hget hqueue hidle hrouted hphase hconn)
  | commanded => exact .inl (stepsView_commanded hconn)
  | unrouted _ hdst => exact .inl (unchanged hconn rfl rfl rfl (by simp [Sent.recorded_of_destPeer hdst]))
  | called => exact .inl (unchanged hconn rfl rfl rfl rfl)
  | stopped hsending =>
    have hdst := (hw.sending _ _ _ hsending).1
    exact .inl (unchanged hconn rfl rfl rfl (by simp [Sent.recorded_of_destPeer hdst]))
  | pushedBack hsending =>
    have hdst := (hw.sending _ _ _ hsending).1
    exact .inl (unchanged hconn rfl rfl rfl (by simp [Sent.recorded_of_destPeer hdst]))
  | enqueued hsending hget hpumping hroom =>
    exact .inl (stepsView_enqueued hw hids hsending hget hpumping hroom hconn)
  | lost hget hphase haccepting => exact .inl (stepsView_lost hw hids hget hphase haccepting hconn)

/-! ## Runs -/

/-- What every step of a node preserves holds after every run. -/
theorem tasks_induct {P : QuicNet → List Sent → Prop}
    (hstep : ∀ net net' log sent, P net log → Step net net' sent → P net' (log ++ sent.toList)) {ts : List Task}
    {net net' : QuicNet} (log : List Sent) {log' : List Sent} (h : net.tasks ts = some (net', log'))
    (hP : P net log) : P net' (log ++ log') := by
  induction ts generalizing net log log' with
  | nil =>
    cases h
    rwa [List.append_nil]
  | cons t ts ih =>
    rw [tasks] at h
    split at h
    · cases h
    case h_2 mid sent htask =>
      split at h
      · cases h
      case h_2 last rest htasks =>
        cases h
        rw [← List.append_assoc]
        exact ih (log ++ sent.toList) htasks (hstep net mid log sent hP (task_step htask))

/-- A node after some of its run: wired up, with its events and messages named, and the views of its connections. -/
structure Viewed (Q : View → Prop) (net : QuicNet) (log : List Sent) : Prop where
  wired : net.Wired
  named : net.Named log
  views : net.conns.length ≤ 2 ^ 64 → ∀ (j : Nat) (conn : Conn), net.conns[j]? = some conn → Q (net.view log j conn)

/-- **What every step of a view keeps** holds of every connection after every run. -/
theorem tasks_views {Q : View → Prop} (hnew : ∀ peer expected recorded, Q (View.new peer expected recorded))
    (hkept : ∀ v v', Q v → View.Step v v' → Q v') {ts : List Task} {net net' : QuicNet} {log log' : List Sent}
    (h : net.tasks ts = some (net', log')) (hv : Viewed Q net log) : Viewed Q net' (log ++ log') := by
  refine tasks_induct (P := Viewed Q) (fun net net' log sent hv hstep => ?_) log h hv
  refine ⟨hstep.wired hv.wired, hstep.named hv.wired hv.named, fun hids j conn' hconn => ?_⟩
  rcases hstep.view hv.wired hv.named hids hconn with ⟨conn, hold, hview⟩ | ⟨expected, hview⟩
  · exact hkept _ _ (hv.views (hstep.length_le.trans hids) j conn hold) hview
  · rw [hview]
    exact hnew _ _ _

omit [Message Bcast] [Message Sess] [Message Header] [Message ChunkIdent] in
/-- A new node has no views. -/
theorem new_viewed (Q : View → Prop) : Viewed Q {} [] where
  wired := new_wired
  named := new_named
  views hids j conn hconn := by simp at hconn

end Streams

end QuicNet

end Ethp2p
