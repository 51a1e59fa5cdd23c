/-
# Ethp2p.Transport.Reports — what a node reports of its peers.

Two things a node's engine relies on hold in every interleaving of the node's tasks.

* Presence (`Attended`): the events of a peer begin with the report that it is connected, which comes once, and at
  most one of them reports its loss; its sender is in the routing table exactly from its registration to its loss.
  The entry comes before the first report and goes before the second, so between the two reports a send may already
  find the peer gone, but before the first one there is nothing to send.
* Outcomes (`Settles`): of the chunks that were accepted for a peer, those that were reported are the first ones,
  in order and each once; the others are still waiting.
-/
import Ethp2p.Transport.Views

namespace Ethp2p

section Streams

variable [Message Bcast] [Message Sess] [Message Header] [Message ChunkIdent]

/-! ## Presence -/

/-- The event reports that the peer has come or gone. -/
def NetEvent.isPresence : NetEvent → Bool
  | .peerConnected _ | .peerDisconnected _ => true
  | _ => false

/-- No task of the connection has begun anything. -/
def Conn.Idle (conn : Conn) : Prop := conn.writing = none ∧ conn.watched = [] ∧ conn.readers = []

/-- How far a connection has come, its place in the routing table and the events of its peer fit together. -/
structure View.Attended (v : View) : Prop where
  silent : v.conn.phase ≠ .running → v.conn.Idle ∧ v.events = []
  announced : v.conn.phase = .running → ∃ rest, v.events = .peerConnected v.conn.peer :: rest
    ∧ rest.filter NetEvent.isPresence = if v.conn.reported then [.peerDisconnected v.conn.peer] else []
  routed : v.routed = true ↔ v.conn.phase ≠ .assigned ∧ v.conn.accepting = true
  lost : v.conn.accepting = false → v.conn.phase = .running
  reported : v.conn.reported = true → v.conn.accepting = false
  bounded : v.conn.queue.length ≤ QuicNet.perPeerOutboundQueue
  pinned : ∀ expected, v.conn.expected = some expected → ∀ peer version channels peerId,
    .handshake peer version channels peerId ∈ v.events → peerId = expected

section Moves

variable {known : ChannelId × MessageId → Prop} {conn conn' : Conn} {events : List NetEvent}

/-- A task that reports neither of the two. -/
structure Conn.Move.Usual (conn conn' : Conn) (events : List NetEvent) : Prop where
  phase : conn'.phase = conn.phase
  accepting : conn'.accepting = conn.accepting
  reported : conn'.reported = conn.reported
  queue : conn'.queue.length ≤ conn.queue.length
  quiet : ∀ ev ∈ events, ev.isPresence = false
  idle : conn.phase ≠ .running → conn.Idle → conn'.Idle ∧ events = []

/-- **What a move says of the peer's presence**: that it is there, that it is gone, or nothing. -/
theorem Conn.Move.presence_cases (h : Move known conn conn' events) :
    conn.phase = .registered ∧ conn' = { conn with phase := .running } ∧ events = [.peerConnected conn.peer]
    ∨ conn.accepting = false ∧ conn.reported = false ∧ conn' = { conn with reported := true }
      ∧ events = [.peerDisconnected conn.peer]
    ∨ Usual conn conn' events := by
  -- the two presence events have one move each; every other move is usual
  cases h with
  | announced hphase => exact .inl ⟨hphase, rfl, rfl⟩
  | reported hlost hfirst => exact .inr (.inl ⟨hlost, hfirst, rfl, rfl⟩)
  | took hphase hidle hqueue =>
    refine .inr (.inr ⟨rfl, rfl, rfl, ?_, by simp, fun hnot => absurd hphase hnot⟩)
    rw [hqueue]
    exact Nat.le_succ _
  | @wrote msg fate ok out events watched hwriting hwrite hwatched =>
    refine .inr (.inr ⟨rfl, rfl, rfl, Nat.le_refl _, fun ev hev => ?_, fun _ hidle => ?_⟩)
    · obtain rfl : (conn.out.writeOutboundOr msg fate).2.2 = events := by rw [hwrite]
      obtain ⟨peer, c, m, idx, data, token, ok', -, rfl⟩ := PeerStreams.chunk_of_mem_writeOutboundOr hev
      rfl
    · rw [hidle.1] at hwriting
      cases hwriting
  | @heard w stream channel messageId events hwatched hevents =>
    refine .inr (.inr ⟨rfl, rfl, rfl, Nat.le_refl _, fun ev hev => ?_, fun _ hidle => ?_⟩)
    · rcases hevents with rfl | rfl | rfl
      · cases hev
      · obtain rfl := List.mem_singleton.mp hev
        rfl
      · obtain rfl := List.mem_singleton.mp hev
        rfl
    · rw [hidle.2.1] at hwatched
      cases hwatched
  | accepted hphase =>
    exact .inr (.inr ⟨rfl, rfl, rfl, Nat.le_refl _, by simp, fun hnot => absurd hphase hnot⟩)
  | @arrived r reader bytes hreader =>
    refine .inr (.inr ⟨rfl, rfl, rfl, Nat.le_refl _, by simp, fun _ hidle => ?_⟩)
    rw [hidle.2.2] at hreader
    cases hreader
  | @emitted r reader event hreader hopen hevent =>
    refine .inr (.inr ⟨rfl, rfl, rfl, Nat.le_refl _, fun ev hev => ?_, fun _ hidle => ?_⟩)
    · obtain rfl := List.mem_singleton.mp hev
      have hdata := (readStream_data _ (List.mem_of_getElem? hevent)).1
      cases ev <;> first | rfl | cases hdata
    · rw [hidle.2.2] at hreader
      cases hreader
  | @ended r reader stopped closed hreader hstopped =>
    refine .inr (.inr ⟨rfl, rfl, rfl, Nat.le_refl _, by simp, fun _ hidle => ?_⟩)
    rw [hidle.2.2] at hreader
    cases hreader

/-- A pinned peer shakes hands with its identity. -/
theorem Conn.Move.pinned (h : Move known conn conn' events) {expected : String}
    (hexpected : conn.expected = some expected) {peer : PeerId} {version : Nat} {channels : List ChannelId}
    {peerId : String} (hev : .handshake peer version channels peerId ∈ events) : peerId = expected := by
  -- a handshake comes from a reader only
  rcases h.event_cases hev with heq | heq | ⟨_, _, _, _, _, _, _, -, heq⟩ | ⟨_, _, heq | heq⟩ | ⟨reader, hmem⟩
  · cases heq
  · cases heq
  · cases heq
  · cases heq
  · cases heq
  · rw [StreamReader.events, hexpected] at hmem
    exact readStream_pinned hmem

end Moves

namespace View

variable {v v' : View}

omit [Message Bcast] [Message Sess] [Message Header] [Message ChunkIdent] in
/-- A new connection has said nothing. -/
theorem new_attended (peer : PeerId) (expected : Option String) (recorded : List (ChannelId × MessageId)) :
    (View.new peer expected recorded).Attended where
  silent _ := ⟨⟨rfl, rfl, rfl⟩, rfl⟩
  announced h := by cases h
  routed := by simp [View.new]
  lost h := by cases h
  reported h := by cases h
  bounded := Nat.zero_le _
  pinned _ _ _ _ _ _ h := by cases h

/-- **Every step of a view** keeps it attended. -/
theorem Attended.step (h : v.Attended) (hstep : View.Step v v') : v'.Attended := by
  cases hstep with
  | kept => exact h
  | recorded => exact ⟨h.silent, h.announced, h.routed, h.lost, h.reported, h.bounded, h.pinned⟩
  -- a connection still being set up has not lost its peer
  | registered hphase =>
    have hnot : v.conn.phase ≠ .running := by rw [hphase]; decide
    have haccepting : v.conn.accepting = true := by
      by_contra hlost
      exact hnot (h.lost (by simpa using hlost))
    refine ⟨fun _ => h.silent hnot, fun hrunning => ?_, ?_, fun hlost => ?_, h.reported, h.bounded, h.pinned⟩
    · cases hrunning
    · exact iff_of_true rfl ⟨by simp, haccepting⟩
    · exact absurd (h.lost hlost) hnot
  | @moved conn events hmove =>
    have hpinned : ∀ expected, conn.expected = some expected → ∀ peer version channels peerId,
        .handshake peer version channels peerId ∈ v.events ++ events → peerId = expected := by
      intro expected hexpected peer version channels peerId hev
      rw [hmove.expected_eq] at hexpected
      rcases List.mem_append.mp hev with hev | hev
      · exact h.pinned expected hexpected peer version channels peerId hev
      · exact hmove.pinned hexpected hev
    -- the peer is announced now, its departure is reported now, or neither
    rcases hmove.presence_cases with ⟨hphase, rfl, rfl⟩ | ⟨hlost, hfirst, rfl, rfl⟩ | husual
    · have hnot : v.conn.phase ≠ .running := by rw [hphase]; decide
      have hreported : v.conn.reported = false := by
        by_contra hsome
        exact hnot (h.lost (h.reported (by simpa using hsome)))
      refine ⟨fun hrunning => absurd rfl hrunning, fun _ => ?_, ?_, fun _ => rfl, h.reported, h.bounded, hpinned⟩
      · exact ⟨[], by simp only [(h.silent hnot).2, List.nil_append],
          by simp only [hreported, List.filter_nil, Bool.false_eq_true, if_false]⟩
      · rw [h.routed, hphase]
        simp
    · refine ⟨fun hnot => absurd (h.lost hlost) hnot, fun hrunning => ?_, h.routed, h.lost, fun _ => hlost,
        h.bounded, hpinned⟩
      obtain ⟨rest, hevents, hrest⟩ := h.announced hrunning
      refine ⟨rest ++ [.peerDisconnected v.conn.peer], by simp only [hevents, List.cons_append], ?_⟩
      rw [List.filter_append, hrest, hfirst]
      rfl
    · refine ⟨fun hnot => ?_, fun hrunning => ?_, ?_, ?_, ?_, husual.queue.trans h.bounded, hpinned⟩
      · have hnot' : v.conn.phase ≠ .running := husual.phase ▸ hnot
        obtain ⟨hidle, hevents⟩ := h.silent hnot'
        obtain ⟨hidle', rfl⟩ := husual.idle hnot' hidle
        exact ⟨hidle', by simp only [hevents, List.append_nil]⟩
      · have hrunning' : v.conn.phase = .running := husual.phase ▸ hrunning
        obtain ⟨rest, hevents, hrest⟩ := h.announced hrunning'
        refine ⟨rest ++ events, by simp only [hevents, hmove.peer_eq, List.cons_append], ?_⟩
        have hquiet : events.filter NetEvent.isPresence = [] :=
          List.filter_eq_nil_iff.mpr fun ev hev => by simp [husual.quiet ev hev]
        simp only [List.filter_append, hrest, hquiet, List.append_nil, husual.reported, hmove.peer_eq]
      · simp only [h.routed, husual.phase, husual.accepting]
      · simp only [husual.phase, husual.accepting]
        exact h.lost
      · simp only [husual.reported, husual.accepting]
        exact h.reported
  | exited hqueue hrouted hphase =>
    exact ⟨fun hnot => absurd hphase hnot, h.announced, h.routed, h.lost, h.reported, h.bounded, h.pinned⟩
  | @enqueued msg hdst hpumping hroom =>
    refine ⟨h.silent, h.announced, h.routed, h.lost, h.reported, ?_, h.pinned⟩
    simp only [List.length_append, List.length_singleton]
    exact hroom
  | lost hphase haccepting =>
    refine ⟨fun hnot => absurd hphase hnot, h.announced, ?_, fun _ => hphase, fun _ => rfl, h.bounded, h.pinned⟩
    simp

end View

/-! ## Outcomes -/

/-- What the outcome of a chunk names. -/
abbrev Ticket := ChannelId × MessageId × DispatchHandle

/-- The ticket of a chunk. -/
def NetSend.ticket : NetSend → Option Ticket
  | .chunk _ channel messageId _ _ token => some (channel, messageId, token)
  | _ => none

/-- The ticket an outcome names. -/
def NetEvent.ticket : NetEvent → Option Ticket
  | .chunkSendResult _ channel messageId token _ => some (channel, messageId, token)
  | _ => none

/-- The chunks that were accepted are those that were reported, in order, and those that wait. -/
structure View.Settles (v : View) : Prop where
  outcomes : v.accepted.filterMap NetSend.ticket
    = v.events.filterMap NetEvent.ticket ++ v.conn.backlog.filterMap NetSend.ticket
  ended : v.conn.pumping = false → v.conn.backlog = []

/-- A chunk is reported once, whatever becomes of its write. -/
theorem PeerStreams.writeOutboundOr_ticket (out : PeerStreams) (msg : NetSend) (fate : Fate) :
    (out.writeOutboundOr msg fate).2.2.filterMap NetEvent.ticket = msg.ticket.toList := by
  cases msg with
  | chunk peer c m idx data token =>
    obtain ⟨ok, hevents⟩ := out.writeOutboundOr_chunk peer c m idx data token fate
    rw [hevents]
    rfl
  | handshake | subscribe | unsubscribe | sessionOpen | routingUpdate | sessionReconstructed =>
    rw [writeOutboundOr_quiet _ (by simp)]
    rfl

/-- A chunk that is taken off is reported, and nothing else is. -/
theorem Conn.Move.outcomes {known : ChannelId × MessageId → Prop} {conn conn' : Conn} {events : List NetEvent}
    (h : Move known conn conn' events) :
    conn.backlog.filterMap NetSend.ticket
      = events.filterMap NetEvent.ticket ++ conn'.backlog.filterMap NetSend.ticket := by
  have hkept : conn'.backlog = conn.backlog → events.filterMap NetEvent.ticket = [] →
      conn.backlog.filterMap NetSend.ticket
        = events.filterMap NetEvent.ticket ++ conn'.backlog.filterMap NetSend.ticket := by
    intro hback hnone
    rw [hback, hnone, List.nil_append]
  -- only a write takes a message off the backlog, and it reports the ticket of that message
  cases h with
  | announced | accepted | arrived | ended | reported => exact hkept rfl rfl
  | took hphase hidle hqueue =>
    refine hkept ?_ rfl
    simp only [Conn.backlog, hidle, hqueue]
    rfl
  | @wrote msg fate ok out events watched hwriting hwrite =>
    obtain rfl : (conn.out.writeOutboundOr msg fate).2.2 = events := by rw [hwrite]
    have hback : conn.backlog = msg :: conn.queue := by
      rw [Conn.backlog, hwriting]
      rfl
    rw [PeerStreams.writeOutboundOr_ticket, hback, List.filterMap_cons]
    cases msg.ticket <;> rfl
  | heard _ hevents =>
    refine hkept rfl ?_
    rcases hevents with rfl | rfl | rfl <;> rfl
  | emitted hreader hopen hevent =>
    refine hkept rfl ?_
    rename_i event
    have hdata := (readStream_data _ (List.mem_of_getElem? hevent)).1
    cases event <;> first | rfl | cases hdata

/-- **Every step of a view** keeps its chunks accounted for. -/
theorem View.Settles.step {v v' : View} (h : v.Settles) (hstep : View.Step v v') : v'.Settles := by
  cases hstep with
  | kept => exact h
  | registered | recorded | lost => exact ⟨h.outcomes, h.ended⟩
  | @moved conn events hmove =>
    refine ⟨?_, fun hended => ?_⟩
    · rw [h.outcomes, hmove.outcomes, List.filterMap_append, List.append_assoc]
    · have hended' : v.conn.pumping = false := by
        cases hmove <;> exact hended
      have hempty := h.ended hended'
      rcases hmove.backlog with heq | ⟨msg, -, heq⟩
      · rw [heq, hempty]
      · rw [hempty] at heq
        cases heq
  | exited hqueue => exact ⟨h.outcomes, fun _ => hqueue⟩
  | @enqueued msg hdst hpumping hroom =>
    refine ⟨?_, fun hended => ?_⟩
    · have hback : Conn.backlog { v.conn with queue := v.conn.queue ++ [msg] } = v.conn.backlog ++ [msg] :=
        (List.append_assoc _ _ _).symm
      simp only [hback, List.filterMap_append, h.outcomes, List.append_assoc]
    · have hended' : v.conn.pumping = false := hended
      rw [hpumping] at hended'
      cases hended'

omit [Message Bcast] [Message Sess] [Message Header] [Message ChunkIdent] in
theorem View.new_settles (peer : PeerId) (expected : Option String) (recorded : List (ChannelId × MessageId)) :
    (View.new peer expected recorded).Settles := ⟨rfl, fun h => by cases h⟩

/-! ## Runs -/

namespace QuicNet

variable {ts : List Task} {net : QuicNet} {log : List Sent}

/-- Every view of a node is attended and settles, whatever tasks were done. -/
theorem tasks_reports (h : ({} : QuicNet).tasks ts = some (net, log)) :
    Viewed (fun v => v.Attended ∧ v.Settles) net log := by
  have hviewed := tasks_views (Q := fun v => v.Attended ∧ v.Settles)
    (fun peer expected recorded =>
      ⟨View.new_attended peer expected recorded, View.new_settles peer expected recorded⟩)
    (fun v v' hv hstep => ⟨hv.1.step hstep, hv.2.step hstep⟩) h (new_viewed _)
  rwa [List.nil_append] at hviewed

/-- **Presence.**  After any interleaving of a node's tasks, every event is of one of its connections; the routing
table has exactly the senders of those that are registered and not lost; and the events of a peer begin with its
connection, which they report once, have at most one report of its loss, and a handshake of a pinned peer only with
its identity. -/
theorem tasks_attended (h : ({} : QuicNet).tasks ts = some (net, log)) (hids : net.conns.length ≤ 2 ^ 64) :
    (∀ (j : Nat) (conn : Conn), net.conns[j]? = some conn → (net.view log j conn).Attended)
    ∧ (∀ (peer : PeerId) (j : Nat), net.peerSenders[peer]? = some j ↔
        ∃ conn : Conn, net.conns[j]? = some conn ∧ conn.peer = peer ∧ conn.phase ≠ .assigned
          ∧ conn.accepting = true)
    ∧ ∀ ev ∈ net.inbound, net.Knows ev.sender := by
  have hviewed := tasks_reports h
  refine ⟨fun j conn hconn => (hviewed.views hids j conn hconn).1, fun peer j => ⟨fun hrouted => ?_, ?_⟩,
    hviewed.named.events⟩
  · obtain ⟨conn, hconn, rfl, -⟩ := hviewed.wired.routes peer j hrouted
    exact ⟨conn, hconn, rfl, (hviewed.views hids j conn hconn).1.routed.mp (decide_eq_true hrouted)⟩
  · rintro ⟨conn, hconn, rfl, hlive⟩
    exact of_decide_eq_true ((hviewed.views hids j conn hconn).1.routed.mpr hlive)

/-- **Outcomes.**  After any interleaving of a node's tasks, the chunks that were accepted for a peer are the ones
whose outcome was reported to it, in order and each once, and then those that still wait, which are not more than
the queue and the one that is being written.  A pump only ends when nothing waits, and never under a send that has
looked it up. -/
theorem tasks_settled (h : ({} : QuicNet).tasks ts = some (net, log)) (hids : net.conns.length ≤ 2 ^ 64) {j : Nat}
    {conn : Conn} (hconn : net.conns[j]? = some conn) :
    (log.filterMap (Sent.acceptedFor conn.peer)).filterMap NetSend.ticket
        = (net.inbound.filter fun ev => ev.sender = conn.peer).filterMap NetEvent.ticket
          ++ conn.backlog.filterMap NetSend.ticket
    ∧ conn.backlog.length ≤ perPeerOutboundQueue + 1
    ∧ (conn.pumping = false → conn.backlog = [] ∧ ∀ call ∈ net.sending, call.2.2 ≠ j) := by
  have hviewed := tasks_reports h
  obtain ⟨hattended, hsettles⟩ := hviewed.views hids j conn hconn
  refine ⟨hsettles.outcomes, ?_, fun hended => ?_⟩
  · rw [Conn.backlog, List.length_append]
    have hqueue := hattended.bounded
    have hone : conn.writing.toList.length ≤ 1 := by cases conn.writing <;> simp
    have hqueue' : conn.queue.length ≤ perPeerOutboundQueue := hqueue
    omega
  · obtain ⟨hempty, -, -, hcalls⟩ := hviewed.wired.ended j conn hconn hended
    exact ⟨hempty, hcalls⟩

end QuicNet

end Streams

namespace QuicNet

section Proto3

attribute [local instance] Proto3.bcast Proto3.sess Proto3.header Proto3.ident

/-- A pinned peer is dialed, shakes hands, is sent a chunk whose stream is lost, and goes away. -/
def dialedAndLost : List Task :=
  [.connect (some "b"), .register 0, .send (.chunk 1 "c" "m" 0 [1] 0), .announce 0, .enqueue, .accept 0 0,
    .arrive 0 0 (openStream [] .bcast ++ frame (Bcast.mk (some (.peerHandshake 1 ["c"] "b")))), .read 0 0, .recv 0,
    .lose 0, .write 0 (.cut 3), .report 0, .exit 0]

/-- A peer is dialed, sends its handshake and is lost with a chunk that was not written. -/
theorem dialedAndLost_some :
    ∃ net log, ({} : QuicNet).tasks dialedAndLost = some (net, log) ∧ net.conns.length = 1
      ∧ net.inbound = [.peerConnected 1, .handshake 1 1 ["c"] "b", .chunkSendResult 1 "c" "m" 0 false,
        .peerDisconnected 1] := by
  have hrun : (({} : QuicNet).tasks dialedAndLost).any (fun x => x.1.conns.length = 1
      && x.1.inbound = [.peerConnected 1, .handshake 1 1 ["c"] "b", .chunkSendResult 1 "c" "m" 0 false,
        .peerDisconnected 1]) = true := by
    decide +kernel
  obtain ⟨⟨net, log⟩, hnet, hok⟩ := (Option.any_eq_true _ _).mp hrun
  simp only [Bool.and_eq_true, decide_eq_true_eq] at hok
  exact ⟨net, log, hnet, hok⟩

/-- Its presence is reported, and then its absence. -/
theorem tasks_attended_dialed :
    ∃ net log, ({} : QuicNet).tasks dialedAndLost = some (net, log) ∧ net.inbound.length = 4
      ∧ ∀ (j : Nat) (conn : Conn), net.conns[j]? = some conn → (net.view log j conn).Attended := by
  obtain ⟨net, log, hnet, hconns, hinbound⟩ := dialedAndLost_some
  exact ⟨net, log, hnet, by rw [hinbound]; rfl, (tasks_attended hnet (by rw [hconns]; decide)).1⟩

/-- The chunk's failure is reported, too. -/
theorem tasks_settled_dialed :
    ∃ net log, ({} : QuicNet).tasks dialedAndLost = some (net, log) ∧ ∃ conn : Conn, net.conns[0]? = some conn
      ∧ (log.filterMap (Sent.acceptedFor conn.peer)).filterMap NetSend.ticket
        = (net.inbound.filter fun ev => ev.sender = conn.peer).filterMap NetEvent.ticket
          ++ conn.backlog.filterMap NetSend.ticket := by
  obtain ⟨net, log, hnet, hconns, -⟩ := dialedAndLost_some
  have hlt : 0 < net.conns.length := by rw [hconns]; decide
  have hconn : net.conns[0]? = some net.conns[0] := List.getElem?_eq_getElem hlt
  exact ⟨net, log, hnet, net.conns[0], hconn, (tasks_settled hnet (by rw [hconns]; decide) hconn).1⟩

end Proto3

end QuicNet

end Ethp2p
