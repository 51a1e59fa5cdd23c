/-
# Ethp2p.Engine.Ledger — everything the engine holds about one message.

A message `(channel, message_id)` is spread over seven maps of the engine: the channel's sessions, the
session metadata, the retained preambles, the peers it was opened to, the pending sends, the
tombstones and the parked chunks.  `Ledger` collects the seven entries of one key, with the
subscribers of its channel and everything submitted to the transport so far.

`LedgerStep` lists the changes a ledger can undergo, each with its guard, and `step_ledger` shows that
every step of the engine is a sequence of them, whatever it does to other messages meanwhile.  An
invariant of one message is then proved once per change, without a map in sight.

`Premises` says what is known of the run: of the sessions it polls, of the inputs it is given, and
whether it decodes and sweeps.
-/
import Ethp2p.Engine.Sessions

namespace Ethp2p

open Std

/-- The session whose data the message carries. -/
def NetSend.sessionKey? : NetSend → Option SessionKey
  | .sessionOpen _ c m .. | .routingUpdate _ c m _ | .chunk _ c m .. => some (c, m)
  | .handshake .. | .subscribe .. | .unsubscribe .. | .sessionReconstructed .. => none

/-- What the engine holds about one key, the dispatches of a drain of it that are polled and not
submitted yet, and everything the engine has submitted. -/
structure Ledger where
  subscribers : Option (BTreeSet PeerId)
  session : Option (Session RsStrategy)
  info : Option SessionMeta
  preamble : Option Bytes
  openedTo : Option (BTreeSet PeerId)
  pending : DispatchHandle → Option PeerId
  tombstone : Option Instant
  parked : Option (List ParkedChunk)
  unsent : List (ChunkDispatch Nat)
  log : List Sent

/-- The ledger of a key, outside its drains. -/
def Engine.ledger (e : Engine RsStrategy Wire) (k : SessionKey) : Ledger where
  subscribers := e.channels[k.1]?.map (·.subscribers)
  session := e.session? k.1 k.2
  info := e.sessionMeta[k]?
  preamble := e.sessionPreambles[k]?
  openedTo := e.openedTo[k]?
  pending h := e.pendingSends[(k.1, k.2, h)]?
  tombstone := e.tombstones[k]?
  parked := e.parkedChunks[k]?
  unsent := []
  log := e.net.log

/-- Mark terminal, first time only. -/
def SessionMeta.markTerminal (info : SessionMeta) (now : Instant) : SessionMeta :=
  { info with terminalAt := some (info.terminalAt.getD now) }

/-- Add a chunk to a buffer of parked ones, dropping the oldest when it is full. -/
def parkIn (buf : List ParkedChunk) (chunk : ParkedChunk) : List ParkedChunk :=
  (if buf.length ≥ maxParkedChunksPerMessage then buf.tail else buf) ++ [chunk]

/-- Drop the parked chunks past their time, and the buffer when it is empty. -/
def expireParked (now : Instant) (buf : List ParkedChunk) : Option (List ParkedChunk) :=
  (some (buf.filter fun ch => now - ch.parkedAt ≤ parkedChunkTtl)).filter (!·.isEmpty)

namespace Ledger

/-- The session was opened to the peer, or there is no preamble to open it with. -/
def Opened (L : Ledger) (peer : PeerId) : Prop := L.openedTo.any (peer ∈ ·) ∨ L.preamble = none

/-- The peer subscribes to the channel or is attached to the session. -/
def Target (L : Ledger) (peer : PeerId) : Prop :=
  L.subscribers.any (peer ∈ ·) ∨ ∃ s, L.session = some s ∧ peer ∈ s.strategy.attachedPeers

/-- A peer is gone. -/
def disconnect [Crates] (L : Ledger) (p : PeerId) : Ledger :=
  { L with
    subscribers := L.subscribers.map (·.erase p)
    session := if L.subscribers.any (p ∈ ·) then L.session.map (·.detachPeer p false) else L.session
    openedTo := L.openedTo.map (·.erase p)
    pending := fun h => (L.pending h).filter (· ≠ p) }

/-- The session is disposed. -/
def dispose (L : Ledger) (now : Instant) : Ledger :=
  { L with
    session := none
    info := none
    preamble := none
    openedTo := none
    pending := fun _ => none
    tombstone := some now
    parked := none }

end Ledger

/-- What is known of a run: what the polled sessions satisfy, whether its inputs are valid, and whether
it may decode and sweep. -/
structure Premises where
  polls : Session RsStrategy → Prop
  valid : Prop
  decodes : Prop
  sweeps : Prop

/-- Nothing is known of the run. -/
abbrev Premises.none : Premises := ⟨fun _ => True, False, True, True⟩

/-- The strategy was built for a session that starts in this state. -/
inductive BuiltAs [Crates] : SessionState → RsStrategy → Prop
  | relay {preamble config seed s} (h : RsStrategy.newRelayWithSeed preamble config seed = .ok s) :
      BuiltAs .consuming s
  | origin {payload config seed s} (h : RsStrategy.newOriginWithSeed payload config seed = .ok s) :
      BuiltAs .origin s

/-- A session that was just built has a new strategy. -/
theorem BuiltAs.fresh [Crates] {state : SessionState} {s : RsStrategy} (h : BuiltAs state s) :
    s.Fresh := by
  cases h with
  | relay h => exact RsStrategy.newRelayWithSeed_fresh h
  | origin h => exact RsStrategy.newOriginWithSeed_fresh h

/-- The dispatch carries a chunk that the session stores, to a peer attached to it, and is in flight
under its handle. -/
structure Session.Backs (s : Session RsStrategy) (d : ChunkDispatch Nat) : Prop where
  stored : s.strategy.chunkAt d.chunkId = some d.payload
  attached : d.peer ∈ s.strategy.attachedPeers
  flying : s.strategy.inFlight[d.handle]? = some (d.peer, d.chunkId)

/-- A session created by input `i` for key `k`: a relay session for a key without tombstone, or an
origin session. -/
inductive Creation (i : Input RsStrategy) (k : SessionKey) (L : Ledger) :
    Bytes → SessionState → RsStrategy → Prop
  | relay {peer preamble update strategy}
      (hi : i = .event (.sessionOpen peer k.1 k.2 preamble update)) (htomb : L.tombstone = none) :
      Creation i k L preamble .consuming strategy
  | origin {strategy preamble} (hi : i = .publish k.1 k.2 strategy preamble) :
      Creation i k L preamble .origin strategy

/-- One change of the ledger of `k` on input `i`. -/
inductive LedgerStep [Crates] (A : Premises) (i : Input RsStrategy) (k : SessionKey) :
    Ledger → Ledger → Prop
  /-- Something else is submitted. -/
  | submitted {L sent} (hother : sent.msg.sessionKey? ≠ some k) :
      LedgerStep A i k L { L with log := L.log ++ [sent] }
  /-- The channel is hosted. -/
  | hosted {L factory} (hi : i = .subscribe k.1 factory) (hnew : L.subscribers = none) :
      LedgerStep A i k L { L with subscribers := some ∅ }
  /-- A peer is enrolled in the channel and attached to the session. -/
  | enrolled {L p subs} (hi : Engine.Announces i p k.1) (hsubs : L.subscribers = some subs)
      (hnew : p ∉ subs) :
      LedgerStep A i k L { L with
        subscribers := some (subs.insert p)
        session := L.session.map (·.attachPeer p) }
  /-- A peer leaves the channel and is detached from the session. -/
  | unsubscribed {L p subs} (hi : i = .event (.unsubscribe p k.1)) (hsubs : L.subscribers = some subs)
      (hp : p ∈ subs) :
      LedgerStep A i k L { L with
        subscribers := some (subs.erase p)
        session := L.session.map (·.detachPeer p false) }
  /-- A peer is gone. -/
  | disconnected {L p} (hi : i = .event (.peerDisconnected p)) :
      LedgerStep A i k L (L.disconnect p)
  /-- The session is created, with all current subscribers attached. -/
  | created {L subs preamble state strategy now} (hnone : L.session = none)
      (hsubs : L.subscribers = some subs) (hnew : Creation i k L preamble state strategy)
      (hbuilt : A.valid → BuiltAs state strategy) (hbatch : L.unsent = []) :
      LedgerStep A i k L { L with
        session := some (subs.toList.foldl Session.attachPeer ⟨strategy, state⟩)
        preamble := some preamble
        info := some (L.info.getD ⟨now, none⟩) }
  /-- A `SessionOpen` was refused. -/
  | openRefused {L peer preamble err} (hnew : ¬ L.openedTo.any (peer ∈ ·))
      (hpre : L.preamble = some preamble) (hto : L.Target peer) :
      LedgerStep A i k L { L with
        log := L.log ++ [⟨.sessionOpen peer k.1 k.2 preamble [], .error err⟩] }
  /-- A `SessionOpen` was accepted and remembered. -/
  | opened {L peer preamble} (hnew : ¬ L.openedTo.any (peer ∈ ·))
      (hpre : L.preamble = some preamble) (hto : L.Target peer) :
      LedgerStep A i k L { L with
        openedTo := some ((L.openedTo.getD ∅).insert peer)
        log := L.log ++ [⟨.sessionOpen peer k.1 k.2 preamble [], .ok ()⟩] }
  /-- A routing update was submitted. -/
  | routed {L peer payload answer} (hlive : L.session.isSome) (hto : L.subscribers.any (peer ∈ ·))
      (hopen : L.Opened peer) :
      LedgerStep A i k L { L with
        log := L.log ++ [⟨.routingUpdate peer k.1 k.2 payload, answer⟩] }
  /-- The session was polled. -/
  | polled {L s} (hs : L.session = some s) (hpolls : A.polls s) (hbatch : L.unsent = []) :
      LedgerStep A i k L { L with session := some s.poll.2, unsent := s.poll.1.dispatches }
  /-- A chunk was accepted; its outcome is pending. -/
  | chunkAccepted {L s d rest} (hs : L.session = some s) (hd : s.Backs d) (hopen : L.Opened d.peer)
      (hbatch : L.unsent = d :: rest) :
      LedgerStep A i k L { L with
        pending := Function.update L.pending d.handle (some d.peer)
        unsent := rest
        log := L.log ++ [⟨.chunk d.peer k.1 k.2 d.chunkId d.payload d.handle, .ok ()⟩] }
  /-- A chunk was refused and refunded. -/
  | chunkRefused {L s d rest err} (hs : L.session = some s) (hd : s.Backs d) (hopen : L.Opened d.peer)
      (hbatch : L.unsent = d :: rest) :
      LedgerStep A i k L { L with
        session := some (s.chunkSent d.peer d.handle false)
        unsent := rest
        log := L.log ++ [⟨.chunk d.peer k.1 k.2 d.chunkId d.payload d.handle, .error err⟩] }
  /-- The rest of the batch is given up. -/
  | abandoned {L} : LedgerStep A i k L { L with unsent := [] }
  /-- The session is handed a chunk. -/
  | took {L s idx data} (hi : i.feeds k.1 k.2) (hs : L.session = some s) :
      LedgerStep A i k L { L with session := some (s.takeChunk idx data).2 }
  /-- The session is decoded and marked terminal. -/
  | decoded {L s now} (hdecodes : A.decodes) (hs : L.session = some s) :
      LedgerStep A i k L { L with
        session := some s.decodeAndFinish.2
        info := L.info.map (·.markTerminal now) }
  /-- A send outcome is fed back. -/
  | resolved {L peer token ok} (hi : i = .event (.chunkSendResult peer k.1 k.2 token ok))
      (hpending : (L.pending token).isSome) :
      LedgerStep A i k L { L with
        pending := Function.update L.pending token none
        session := L.session.map (·.chunkSent peer token ok) }
  /-- A peer is detached from the session. -/
  | detached {L s p completed} (hi : i = .event (.peerReconstructed p k.1 k.2)
      ∨ i = .event (.sessionClosed p k.1 k.2)) (hs : L.session = some s) :
      LedgerStep A i k L { L with session := some (s.detachPeer p completed) }
  /-- A chunk is parked. -/
  | parked {L peer chunkId payload parkedAt} (hi : i = .event (.chunk peer k.1 k.2 chunkId payload))
      (htomb : L.tombstone = none) (hnone : L.session = none) :
      LedgerStep A i k L { L with
        parked := some (parkIn (L.parked.getD []) ⟨chunkId, payload, parkedAt⟩) }
  /-- The parked chunks are taken out. -/
  | unparked {L} : LedgerStep A i k L { L with parked := none }
  /-- The session is disposed. -/
  | disposed {L now} (hsweeps : A.sweeps) : LedgerStep A i k L (L.dispose now)
  /-- Tombstones and parked chunks expire. -/
  | swept {L now ttl} (hsweeps : A.sweeps) :
      LedgerStep A i k L { L with
        tombstone := L.tombstone.filter (now - · ≤ ttl)
        parked := L.parked.bind (expireParked now) }

/-- A sequence of changes. -/
abbrev LedgerSteps [Crates] (A : Premises) (i : Input RsStrategy) (k : SessionKey) :
    Ledger → Ledger → Prop :=
  Relation.ReflTransGen (LedgerStep A i k)

/-- What every change preserves, a sequence of changes preserves. -/
theorem LedgerSteps.induct [Crates] {A : Premises} {i : Input RsStrategy} {k : SessionKey}
    {L L' : Ledger} {Q : Ledger → Prop} (h : LedgerSteps A i k L L')
    (hstep : ∀ {L L'}, LedgerStep A i k L L' → Q L → Q L') (hL : Q L) : Q L' := by
  induction h with
  | refl => exact hL
  | tail _ hs ih => exact hstep hs ih

section Live

variable [Crates] {A : Premises} {i : Input RsStrategy} {k : SessionKey} {L L' : Ledger}

/-- **What every session operation preserves, and every built session has, every live session has.** -/
theorem LedgerStep.live {Q : Session RsStrategy → Prop} (h : LedgerStep A i k L L') (hvalid : A.valid)
    (hop : ∀ {s s'}, SessionOp True s s' → Q s → Q s')
    (hbuilt : ∀ state strategy, BuiltAs state strategy → Q ⟨strategy, state⟩)
    (hL : ∀ s, L.session = some s → Q s) : ∀ s, L'.session = some s → Q s := by
  have hmap : ∀ {f : Session RsStrategy → Session RsStrategy}, (∀ s, SessionOp True s (f s)) →
      ∀ s, L.session.map f = some s → Q s := by
    intro f hf s hs
    obtain ⟨s₀, hs₀, rfl⟩ := Option.map_eq_some_iff.mp hs
    exact hop (hf s₀) (hL s₀ hs₀)
  cases h with
  -- the session is not touched
  | submitted | hosted | openRefused | opened | routed | chunkAccepted | abandoned | parked | unparked
  | swept =>
    exact hL
  | enrolled => exact hmap fun s => .attach s _
  | unsubscribed => exact hmap fun s => .detach s _ false
  | disconnected =>
    simp only [Ledger.disconnect]
    split
    · exact hmap fun s => .detach s _ false
    · exact hL
  | @created subs preamble state strategy now hnone hsubs hnew hbuild =>
    -- the session is built, and the subscribers are attached to it
    rintro s ⟨rfl⟩
    apply List.foldlRecOn subs.toList Session.attachPeer (hbuilt state strategy (hbuild hvalid))
    intro s hs p _
    exact hop (.attach s p) hs
  | @polled s₀ hs =>
    rintro s ⟨rfl⟩
    exact hop (.poll s₀) (hL s₀ hs)
  | @chunkRefused s₀ d rest err hs =>
    rintro s ⟨rfl⟩
    exact hop (.sent s₀ _ _ false) (hL s₀ hs)
  | @took s₀ idx data hi hs =>
    rintro s ⟨rfl⟩
    exact hop (.take s₀ idx data) (hL s₀ hs)
  | @decoded s₀ now hdecodes hs =>
    rintro s ⟨rfl⟩
    exact hop (.finish s₀ trivial) (hL s₀ hs)
  | resolved => exact hmap fun s => .sent s _ _ _
  | @detached s₀ p completed hi hs =>
    rintro s ⟨rfl⟩
    exact hop (.detach s₀ p completed) (hL s₀ hs)
  | disposed =>
    intro s hs
    cases hs

/-- Every built session has `Q`, and every operation preserves it, provided that an outcome names the
peer of its dispatch. -/
structure Session.Kept (Q : Session RsStrategy → Prop) : Prop where
  built : ∀ {state strategy}, BuiltAs state strategy → Q ⟨strategy, state⟩
  attach : ∀ {s} p, Q s → Q (s.attachPeer p)
  detach : ∀ {s} p completed, Q s → Q (s.detachPeer p completed)
  poll : ∀ {s : Session RsStrategy}, Q s → Q s.poll.2
  sent : ∀ {s} p handle ok, (∀ v ∈ s.strategy.inFlight[handle]?, v.1 = p) → Q s →
    Q (s.chunkSent p handle ok)
  take : ∀ {s : Session RsStrategy} idx data, Q s → Q (s.takeChunk idx data).2
  finish : ∀ {s : Session RsStrategy}, Q s → Q s.decodeAndFinish.2

/-- `Session.Kept`, where a poll preserves `Q` only of the sessions with `P`. -/
structure Session.KeptWhile (P Q : Session RsStrategy → Prop) : Prop where
  built : ∀ {state strategy}, BuiltAs state strategy → Q ⟨strategy, state⟩
  attach : ∀ {s} p, Q s → Q (s.attachPeer p)
  detach : ∀ {s} p completed, Q s → Q (s.detachPeer p completed)
  poll : ∀ {s : Session RsStrategy}, P s → Q s → Q s.poll.2
  sent : ∀ {s} p handle ok, (∀ v ∈ s.strategy.inFlight[handle]?, v.1 = p) → Q s →
    Q (s.chunkSent p handle ok)
  take : ∀ {s : Session RsStrategy} idx data, Q s → Q (s.takeChunk idx data).2
  finish : ∀ {s : Session RsStrategy}, Q s → Q s.decodeAndFinish.2

/-- What every operation keeps is kept whatever holds meanwhile. -/
theorem Session.Kept.keptWhile {Q : Session RsStrategy → Prop} (h : Session.Kept Q)
    (P : Session RsStrategy → Prop) : Session.KeptWhile P Q :=
  { h with poll := fun _ hs => h.poll hs }

theorem Session.KeptWhile.mono {P P' Q : Session RsStrategy → Prop} (h : Session.KeptWhile P Q)
    (hP : ∀ s, P' s → P s) : Session.KeptWhile P' Q :=
  { h with poll := fun hs => h.poll (hP _ hs) }

theorem Session.KeptWhile.congr {P Q Q' : Session RsStrategy → Prop} (h : Session.KeptWhile P Q)
    (hQ : ∀ s, Q s ↔ Q' s) : Session.KeptWhile P Q' := by
  obtain rfl : Q = Q' := funext fun s => propext (hQ s)
  exact h

theorem Session.KeptWhile.and {P Q Q' : Session RsStrategy → Prop} (h : Session.KeptWhile P Q)
    (h' : Session.KeptWhile P Q') : Session.KeptWhile P fun s => Q s ∧ Q' s where
  built hb := ⟨h.built hb, h'.built hb⟩
  attach p hs := ⟨h.attach p hs.1, h'.attach p hs.2⟩
  detach p completed hs := ⟨h.detach p completed hs.1, h'.detach p completed hs.2⟩
  poll hP hs := ⟨h.poll hP hs.1, h'.poll hP hs.2⟩
  sent p handle ok hown hs := ⟨h.sent p handle ok hown hs.1, h'.sent p handle ok hown hs.2⟩
  take idx data hs := ⟨h.take idx data hs.1, h'.take idx data hs.2⟩
  finish hs := ⟨h.finish hs.1, h'.finish hs.2⟩

/-- **What every operation preserves, every change preserves**, unless it feeds an outcome back. -/
theorem LedgerStep.keptWhile {Q : Session RsStrategy → Prop} (h : LedgerStep A i k L L')
    (hQ : Session.KeptWhile A.polls Q) (hvalid : A.valid)
    (hresult : ∀ peer token ok, i ≠ .event (.chunkSendResult peer k.1 k.2 token ok))
    (hL : ∀ s, L.session = some s → Q s) : ∀ s, L'.session = some s → Q s := by
  cases h with
  | submitted | hosted | openRefused | opened | routed | chunkAccepted | abandoned | parked | unparked
  | swept => exact hL
  | enrolled => exact Option.forall_mem_map.mpr fun s hs => hQ.attach _ (hL s hs)
  | unsubscribed => exact Option.forall_mem_map.mpr fun s hs => hQ.detach _ false (hL s hs)
  | disconnected =>
    simp only [Ledger.disconnect]
    split
    · exact Option.forall_mem_map.mpr fun s hs => hQ.detach _ false (hL s hs)
    · exact hL
  | @created subs preamble state strategy now hnone hsubs hnew hbuilt =>
    rintro s ⟨rfl⟩
    apply List.foldlRecOn subs.toList Session.attachPeer (hQ.built (hbuilt hvalid))
    intro s hs p _
    exact hQ.attach p hs
  | polled hs hP =>
    rintro s ⟨rfl⟩
    exact hQ.poll hP (hL _ hs)
  | @chunkRefused s₀ d rest err hs hd =>
    rintro s ⟨rfl⟩
    -- the refused dispatch is the peer's own
    refine hQ.sent _ _ false (fun v hv => ?_) (hL s₀ hs)
    rw [hd.flying] at hv
    exact congrArg Prod.fst (Option.some.inj hv.symm)
  | @took s₀ idx data hi hs =>
    rintro s ⟨rfl⟩
    exact hQ.take idx data (hL s₀ hs)
  | @decoded s₀ now hdecodes hs =>
    rintro s ⟨rfl⟩
    exact hQ.finish (hL s₀ hs)
  -- a result is excluded here: whether it is the peer's own is not known
  | resolved hi => exact absurd hi (hresult _ _ _)
  | @detached s₀ p completed hi hs =>
    rintro s ⟨rfl⟩
    exact hQ.detach p completed (hL s₀ hs)
  | disposed =>
    intro s hs
    cases hs

/-- A property that every operation but a result keeps is kept by ledger steps without one. -/
theorem LedgerStep.kept {Q : Session RsStrategy → Prop} (h : LedgerStep A i k L L')
    (hQ : Session.Kept Q) (hvalid : A.valid)
    (hresult : ∀ peer token ok, i ≠ .event (.chunkSendResult peer k.1 k.2 token ok))
    (hL : ∀ s, L.session = some s → Q s) : ∀ s, L'.session = some s → Q s :=
  h.keptWhile (hQ.keptWhile A.polls) hvalid hresult hL

/-- What becomes of the batch: a poll fills it, and otherwise it shrinks. -/
theorem LedgerStep.unsent_cases (h : LedgerStep A i k L L') :
    (∃ s, L.session = some s ∧ A.polls s ∧ L'.unsent = s.poll.1.dispatches
      ∧ L'.session = some s.poll.2 ∧ L'.log = L.log)
    ∨ L'.unsent.Sublist L.unsent := by
  cases h with
  | polled hs hpolls => exact .inl ⟨_, hs, hpolls, rfl, rfl, rfl⟩
  | chunkAccepted _ _ _ hbatch | chunkRefused _ _ _ hbatch =>
    refine .inr ?_
    rw [hbatch]
    exact List.sublist_cons_self _ _
  | abandoned => exact .inr (List.nil_sublist _)
  | submitted | hosted | enrolled | unsubscribed | disconnected | created | openRefused | opened | routed
  | took | decoded | resolved | detached | parked | unparked | disposed | swept =>
    exact .inr (List.Sublist.refl _)

/-- `R` holds between a session and what any operation makes of it, where the polled sessions satisfy
`P`. -/
structure Session.OpRel (P : Session RsStrategy → Prop)
    (R : Session RsStrategy → Session RsStrategy → Prop) : Prop where
  refl : ∀ s, R s s
  attach : ∀ s p, R s (s.attachPeer p)
  detach : ∀ s p completed, R s (s.detachPeer p completed)
  poll : ∀ s, P s → R s s.poll.2
  sent : ∀ s p handle ok, R s (s.chunkSent p handle ok)
  take : ∀ s idx data, R s (s.takeChunk idx data).2
  finish : ∀ s, R s s.decodeAndFinish.2

theorem Session.OpRel.mono {P P' : Session RsStrategy → Prop}
    {R : Session RsStrategy → Session RsStrategy → Prop} (hR : Session.OpRel P R)
    (h : ∀ s, P' s → P s) : Session.OpRel P' R :=
  { hR with poll := fun s hs => hR.poll s (h s hs) }

/-- Only a sweep ends a session. -/
theorem LedgerStep.ends (h : LedgerStep A i k L L') (hnone : L'.session = none) :
    L.session = none ∨ A.sweeps := by
  cases h with
  | submitted | hosted | openRefused | opened | routed | chunkAccepted | abandoned | parked | unparked
  | swept => exact .inl hnone
  | enrolled | unsubscribed | resolved => exact .inl (Option.map_eq_none_iff.mp hnone)
  | disconnected =>
    simp only [Ledger.disconnect] at hnone
    split at hnone
    · exact .inl (Option.map_eq_none_iff.mp hnone)
    · exact .inl hnone
  | created | polled | chunkRefused | took | decoded | detached => cases hnone
  | disposed hsweeps => exact .inr hsweeps

/-- **What every session operation relates, every change relates**, unless it creates the session. -/
theorem LedgerStep.session_rel {R : Session RsStrategy → Session RsStrategy → Prop}
    (h : LedgerStep A i k L L') (hR : Session.OpRel A.polls R) {s' : Session RsStrategy}
    (hs' : L'.session = some s') :
    (∃ s, L.session = some s ∧ R s s')
      ∨ L.session = none ∧ (∃ preamble state strategy, Creation i k L preamble state strategy)
        ∧ L'.log = L.log := by
  have hmap : ∀ {f : Session RsStrategy → Session RsStrategy}, (∀ s, R s (f s)) →
      L.session.map f = some s' → ∃ s, L.session = some s ∧ R s s' := by
    intro f hf hs
    obtain ⟨s₀, hs₀, rfl⟩ := Option.map_eq_some_iff.mp hs
    exact ⟨s₀, hs₀, hf s₀⟩
  have hsome : ∀ {s}, L.session = some s → R s s' → ∃ s, L.session = some s ∧ R s s' :=
    fun hs hr => ⟨_, hs, hr⟩
  -- the session is what an operation made of it, or it is new
  cases h with
  | submitted | hosted | openRefused | opened | routed | chunkAccepted | abandoned | parked | unparked
  | swept => exact .inl ⟨s', hs', hR.refl s'⟩
  | enrolled => exact .inl (hmap (fun s => hR.attach s _) hs')
  | unsubscribed => exact .inl (hmap (fun s => hR.detach s _ false) hs')
  | disconnected =>
    simp only [Ledger.disconnect] at hs'
    split at hs'
    · exact .inl (hmap (fun s => hR.detach s _ false) hs')
    · exact .inl ⟨s', hs', hR.refl s'⟩
  | created hnone _ hnew => exact .inr ⟨hnone, ⟨_, _, _, hnew⟩, rfl⟩
  | polled hs hpolls =>
    cases hs'
    exact .inl (hsome hs (hR.poll _ hpolls))
  | chunkRefused hs =>
    cases hs'
    exact .inl (hsome hs (hR.sent _ _ _ false))
  | took _ hs =>
    cases hs'
    exact .inl (hsome hs (hR.take _ _ _))
  | decoded _ hs =>
    cases hs'
    exact .inl (hsome hs (hR.finish _))
  | resolved => exact .inl (hmap (fun s => hR.sent s _ _ _) hs')
  | detached _ hs =>
    cases hs'
    exact .inl (hsome hs (hR.detach _ _ _))
  | disposed => cases hs'

end Live

namespace Engine

section Steps

variable [Crates] {A : Premises} {i : Input RsStrategy} {D : Terms Wire} {k : SessionKey}
  {c : ChannelId} {m : MessageId} {e e' : Engine RsStrategy Wire}

/-! ## Drains -/

omit [Crates] in
/-- The subscribers of a channel, if it is hosted. -/
theorem mem_subscribersOf {p : PeerId} :
    p ∈ e.subscribersOf c ↔ (e.channels[c]?.map (·.subscribers)).any (p ∈ ·) := by
  unfold subscribersOf
  cases e.channels[c]? <;> simp

omit [Crates] in
theorem Target.ledger {peer : PeerId} (h : e.Target c m peer) : (e.ledger (c, m)).Target peer :=
  h.imp mem_subscribersOf.mp id

omit [Crates] in
/-- A drain of another session only adds to the log. -/
theorem DrainFrame.ledger_ne (h : DrainFrame c m e e') (hk : (c, m) ≠ k) :
    e'.ledger k = { e.ledger k with log := e'.net.log } := by
  obtain ⟨c', m'⟩ := k
  have hne : ¬ (c = c' ∧ m = m') := by simpa using hk
  simp only [ledger, h.subscribers_eq, h.session_ne c' m' hne, h.sessionMeta_eq,
    h.sessionPreambles_eq, h.opened_ne c' m' hne, h.pending_ne c' m' _ hne, h.tombstones_eq,
    h.parkedChunks_eq]

omit [Crates] in
/-- A drain changes the session, what it was opened to and what is pending for it. -/
theorem DrainFrame.ledger_self (h : DrainFrame c m e e') :
    e'.ledger (c, m) = { e.ledger (c, m) with
      session := e'.session? c m
      openedTo := e'.openedTo[(c, m)]?
      pending := fun h => e'.pendingSends[(c, m, h)]?
      log := e'.net.log } := by
  simp only [ledger, h.subscribers_eq, h.sessionMeta_eq, h.sessionPreambles_eq, h.tombstones_eq,
    h.parkedChunks_eq]

omit [Crates] in
/-- A chunk that becomes pending, as the ledger of its session shows it. -/
theorem pending_insert (e : Engine RsStrategy Wire) (c : ChannelId) (m : MessageId)
    (h : DispatchHandle) (p : PeerId) :
    (fun h' => (e.pendingSends.insert (c, m, h) p)[(c, m, h')]?)
      = Function.update (e.ledger (c, m)).pending h (some p) := by
  funext h'
  rw [BTreeMap.get_insert]
  by_cases hh : h = h'
  · subst hh
    simp
  · rw [if_neg (by simpa using hh), Function.update_of_ne (Ne.symm hh)]
    rfl

omit [Crates] in
/-- A chunk whose result came is pending no longer. -/
theorem pending_erase (e : Engine RsStrategy Wire) (c : ChannelId) (m : MessageId)
    (h : DispatchHandle) :
    (fun h' => (e.pendingSends.erase (c, m, h))[(c, m, h')]?)
      = Function.update (e.ledger (c, m)).pending h none := by
  funext h'
  rw [BTreeMap.get_erase]
  by_cases hh : h = h'
  · subst hh
    simp
  · rw [if_neg (by simpa using hh), Function.update_of_ne (Ne.symm hh)]
    rfl

omit [Crates] in
/-- A message for another session. -/
theorem ledger_submitted [Crates] {msg : NetSend} {r : Except NetError Unit} {net : Wire}
    (hsend : Net.send e.net msg = (r, net)) (hkey : msg.sessionKey? ≠ some k) :
    LedgerSteps A i k (e.ledger k) { e.ledger k with log := net.log } := by
  rw [log_send hsend]
  exact .single (.submitted hkey)

/-- A control message, in the ledger of its key. -/
theorem ControlStep.ledger_self (h : ControlStep c m e e') (b : List (ChunkDispatch Nat)) :
    LedgerSteps A i (c, m) { e.ledger (c, m) with unsent := b }
      { e'.ledger (c, m) with unsent := b } := by
  have hframe : DrainFrame c m e e' :=
    DrainStepsIf.frame (P := fun _ => True) (ControlSteps.stepsIf (.single h))
  rw [hframe.ledger_self]
  cases h with
  | openRefused hnew hpre hsend hto =>
    rw [log_send hsend]
    exact .single (.openRefused hnew hpre hto.ledger)
  | opened hnew hpre hsend hto =>
    rw [log_send hsend, BTreeMap.get_alter, if_pos rfl]
    exact .single (.opened hnew hpre hto.ledger)
  | routed hsend hlive hto hopen =>
    rw [log_send hsend]
    exact .single (.routed hlive (mem_subscribersOf.mp hto) hopen)

/-- One change of a drain and its batch, in the ledger of its key. -/
theorem BatchStep.ledger_self {x y : List (ChunkDispatch Nat) × Engine RsStrategy Wire}
    (h : BatchStep A.polls c m x y) :
    LedgerSteps A i (c, m) { x.2.ledger (c, m) with unsent := x.1 }
      { y.2.ledger (c, m) with unsent := y.1 } := by
  have hframe := (BatchSteps.stepsIf (.single h)).frame
  cases h with
  | @control b e e' h => exact h.ledger_self b
  | polled hsession hP =>
    rw [hframe.ledger_self, session?_modifySession_self, hsession]
    exact .single (.polled hsession hP rfl)
  | chunkAccepted hd hsend hopen =>
    obtain ⟨s, hs, hstored, hattached, hflying⟩ := hd
    rw [hframe.ledger_self, log_send hsend, pending_insert]
    exact .single (.chunkAccepted hs ⟨hstored, hattached, hflying⟩ hopen rfl)
  | @chunkRefused b e d err net hd hsend hopen =>
    obtain ⟨s, hs, hstored, hattached, hflying⟩ := hd
    have hs' : ({ e with net }.modifySession c m (·.chunkSent d.peer d.handle false)).session? c m
        = some (s.chunkSent d.peer d.handle false) := by
      rw [session?_modifySession_self]
      exact congrArg (Option.map _) hs
    have hlog : ({ e with net }.modifySession c m (·.chunkSent d.peer d.handle false)).net.log
        = e.net.log ++ [⟨.chunk d.peer c m d.chunkId d.payload d.handle, .error err⟩] :=
      log_send hsend
    rw [hframe.ledger_self, hs', hlog]
    exact .single (.chunkRefused hs ⟨hstored, hattached, hflying⟩ hopen rfl)
  | abandoned => exact .single .abandoned

/-- The drain of a session, step by step, is in its ledger, with the batch that is not submitted yet. -/
theorem BatchSteps.ledger_self {x y : List (ChunkDispatch Nat) × Engine RsStrategy Wire}
    (h : BatchSteps A.polls c m x y) :
    LedgerSteps A i (c, m) { x.2.ledger (c, m) with unsent := x.1 }
      { y.2.ledger (c, m) with unsent := y.1 } := by
  induction h with
  | refl => exact .refl
  | tail _ hstep ih => exact ih.trans hstep.ledger_self

/-- The drain of another session shows in a ledger as answers of the transport only. -/
theorem DrainStepIf.ledger_ne (h : DrainStepIf A.polls c m e e') (hk : (c, m) ≠ k) :
    LedgerSteps A i k (e.ledger k) (e'.ledger k) := by
  rw [h.frame.ledger_ne hk]
  have hkey : some (c, m) ≠ some k := by simpa using hk
  cases h with
  | polled => exact .refl
  | openRefused _ _ hsend | opened _ _ hsend | routed hsend | chunkAccepted _ hsend
  | chunkRefused _ hsend => exact ledger_submitted hsend hkey

theorem DrainStepsIf.ledger_ne (h : DrainStepsIf A.polls c m e e') (hk : (c, m) ≠ k) :
    LedgerSteps A i k (e.ledger k) (e'.ledger k) := by
  induction h with
  | refl => exact .refl
  | tail _ hstep ih => exact ih.trans (hstep.ledger_ne hk)

/-- **A drain, in the ledger of any key.** -/
theorem BatchSteps.ledger (h : BatchSteps A.polls c m ([], e) ([], e')) (k : SessionKey) :
    LedgerSteps A i k (e.ledger k) (e'.ledger k) := by
  by_cases hk : (c, m) = k
  · subst hk
    exact h.ledger_self
  · exact h.stepsIf.ledger_ne hk

/-! ## Channels -/

/-- The two entries of a ledger that come from the channel. -/
def channelView (ch : Option (Channel RsStrategy)) (m : MessageId) (L : Ledger) : Ledger :=
  { L with subscribers := ch.map (·.subscribers), session := ch.bind (·.sessions[m]?) }

omit [Crates] in
/-- A replaced channel, seen from one key. -/
theorem ledger_insert (e : Engine RsStrategy Wire) (c : ChannelId) (ch : Channel RsStrategy)
    (k : SessionKey) :
    { e with channels := e.channels.insert c ch }.ledger k
      = channelView (if c = k.1 then some ch else e.channels[k.1]?) k.2 (e.ledger k) := by
  rw [← BTreeMap.get_insert]
  rfl

omit [Crates] in
/-- An update of one channel, seen from one key. -/
theorem ledger_modify (e : Engine RsStrategy Wire) (c : ChannelId)
    (g : Channel RsStrategy → Channel RsStrategy) (k : SessionKey) :
    { e with channels := e.channels.modify c g }.ledger k
      = channelView (if c = k.1 then e.channels[c]?.map g else e.channels[k.1]?) k.2
          (e.ledger k) := by
  rw [← BTreeMap.get_modify]
  rfl

omit [Crates] in
/-- An update of the channels that keeps subscribers and sessions of the key. -/
theorem channelView_same {ch : Option (Channel RsStrategy)}
    (hsubs : ch.map (·.subscribers) = e.channels[k.1]?.map (·.subscribers))
    (hsess : ch.bind (·.sessions[k.2]?) = e.session? k.1 k.2) :
    channelView ch k.2 (e.ledger k) = e.ledger k := by
  unfold channelView
  rw [hsubs, hsess]
  rfl

/-- A peer is enrolled: the ledgers of the channel's sessions show it attached. -/
theorem enrolled_ledger {p : PeerId} (hi : Announces i p c) :
    LedgerSteps A i k (e.ledger k) ((e.subscribePeer c p).ledger k) := by
  rw [subscribePeer, ledger_modify]
  split
  case isFalse => exact .refl
  case isTrue hc =>
    subst hc
    cases hch : e.channels[k.1]? with
    | none =>
      rw [Option.map_none, ← hch]
      exact .refl
    | some ch =>
      by_cases hp : p ∈ ch.subscribers
      · rw [Option.map_some, Channel.subscribePeer, if_pos hp, ← hch]
        exact .refl
      · have hview : channelView (some (ch.subscribePeer p)) k.2 (e.ledger k) = { e.ledger k with
            subscribers := some (ch.subscribers.insert p)
            session := (e.ledger k).session.map (·.attachPeer p) } := by
          simp only [channelView, Channel.subscribePeer, if_neg hp, Option.map_some, Option.bind_some,
            ExtTreeMap.getElem?_map, ledger, session?, hch]
        rw [Option.map_some, hview]
        exact .single (.enrolled hi (by simp [ledger, hch]) hp)

/-- A channel loses a subscriber. -/
theorem channelView_unsubscribePeer {p : PeerId} {ch : Channel RsStrategy}
    (hch : e.channels[k.1]? = some ch) (hp : p ∈ ch.subscribers) :
    channelView (some (ch.unsubscribePeer p)) k.2 (e.ledger k) = { e.ledger k with
      subscribers := some (ch.subscribers.erase p)
      session := (e.ledger k).session.map (·.detachPeer p false) } := by
  simp only [channelView, Channel.unsubscribePeer, if_pos hp, Option.map_some, Option.bind_some,
    ExtTreeMap.getElem?_map, ledger, session?, hch]

/-- A peer leaves a channel: the ledgers of the channel's sessions show it detached. -/
theorem unsubscribed_ledger {p : PeerId} (hi : i = .event (.unsubscribe p c)) :
    LedgerSteps A i k (e.ledger k) ((e.unsubscribePeer c p).ledger k) := by
  rw [unsubscribePeer, ledger_modify]
  split
  case isFalse => exact .refl
  case isTrue hc =>
    subst hc
    cases hch : e.channels[k.1]? with
    | none =>
      rw [Option.map_none, ← hch]
      exact .refl
    | some ch =>
      by_cases hp : p ∈ ch.subscribers
      · rw [Option.map_some, channelView_unsubscribePeer hch hp]
        exact .single (.unsubscribed hi (by simp [ledger, hch]) hp)
      · rw [Option.map_some, Channel.unsubscribePeer, if_neg hp, ← hch]
        exact .refl

/-- A peer is gone: every ledger shows it. -/
theorem disconnected_ledger (p : PeerId) :
    (e.handlePeerDisconnected p).ledger k = (e.ledger k).disconnect p := by
  have hview : channelView (e.channels[k.1]?.map (·.unsubscribePeer p)) k.2 (e.ledger k) = { e.ledger k with
      subscribers := (e.ledger k).subscribers.map (·.erase p)
      session := if (e.ledger k).subscribers.any (p ∈ ·)
        then (e.ledger k).session.map (·.detachPeer p false) else (e.ledger k).session } := by
    cases hch : e.channels[k.1]? with
    | none => simp [channelView, ledger, session?, hch]
    | some ch =>
      by_cases hp : p ∈ ch.subscribers
      · rw [Option.map_some, channelView_unsubscribePeer hch hp]
        simp [ledger, hch, hp]
      · have herase : ch.subscribers.erase p = ch.subscribers := by
          refine ExtTreeSet.ext_mem fun q => ?_
          rw [BTreeSet.mem_erase_iff]
          refine ⟨fun h => h.2, fun hq => ⟨?_, hq⟩⟩
          rintro rfl
          exact hp hq
        rw [Option.map_some, Channel.unsubscribePeer, if_neg hp]
        simp [channelView, ledger, session?, hch, hp, herase]
  have hsplit : (e.handlePeerDisconnected p).ledger k
      = { channelView (e.channels[k.1]?.map (·.unsubscribePeer p)) k.2 (e.ledger k) with
        openedTo := (e.openedTo.map fun _ s => s.erase p)[k]?
        pending := fun h => (e.pendingSends.filter fun _ q => q ≠ p)[(k.1, k.2, h)]? } := by
    unfold handlePeerDisconnected channelView
    simp only [ledger, session?, ExtTreeMap.getElem?_map]
  rw [hsplit, hview]
  simp only [Ledger.disconnect, ExtTreeMap.getElem?_map, BTreeMap.get_filter]
  rfl

/-- A channel is hosted that was not. -/
theorem hosted_ledger {factory : StrategyFactory RsStrategy} (hi : i = .subscribe c factory)
    (hnew : c ∉ e.channels) :
    LedgerSteps A i k (e.ledger k)
      ({ e with channels := e.channels.insert c (Channel.new c factory) }.ledger k) := by
  rw [ledger_insert]
  split
  case isFalse => exact .refl
  case isTrue hc =>
    subst hc
    have hnone : e.channels[k.1]? = none := ExtTreeMap.getElem?_eq_none hnew
    have hview : channelView (some (Channel.new k.1 factory)) k.2 (e.ledger k)
        = { e.ledger k with subscribers := some ∅ } := by
      simp [channelView, Channel.new, ledger, session?, hnone]
    rw [hview]
    exact .single (.hosted hi (by simp [ledger, hnone]))

omit [Crates] in
/-- A channel entry replaced by one with the same subscribers and sessions. -/
theorem ledger_insert_same {ch ch' : Channel RsStrategy} (hch : e.channels[c]? = some ch)
    (hsubs : ch'.subscribers = ch.subscribers) (hsess : ch'.sessions = ch.sessions) :
    { e with channels := e.channels.insert c ch' }.ledger k = e.ledger k := by
  rw [ledger_insert]
  split
  case isFalse => rfl
  case isTrue hc =>
    subst hc
    exact channelView_same (by simp [hch, hsubs]) (by simp [session?, hch, hsess])

omit [Crates] in
/-- Recording a creation, seen from one key. -/
theorem sessionMeta_recordSessionCreated (e : Engine RsStrategy Wire) (c : ChannelId)
    (m : MessageId) :
    (e.recordSessionCreated c m).sessionMeta[k]?
      = if (c, m) = k then some (e.sessionMeta[(c, m)]?.getD ⟨e.now.1, none⟩)
        else e.sessionMeta[k]? := by
  unfold recordSessionCreated
  split
  case isTrue hmem =>
    split
    case isTrue hk =>
      subst hk
      obtain ⟨info, hinfo⟩ := (BTreeMap.mem_iff_get _ _).mp hmem
      simp [hinfo]
    case isFalse => rfl
  case isFalse hmem =>
    have hnone : e.sessionMeta[(c, m)]? = none := ExtTreeMap.getElem?_eq_none hmem
    rw [hnone]
    exact BTreeMap.get_insert _ _ _ _

/-- A session was created, seen from one key. -/
theorem created_ledger {ch ch' : Channel RsStrategy} {preamble : Bytes} {state : SessionState}
    {strategy : RsStrategy} (hch : e.channels[c]? = some ch) (hm : m ∉ ch.sessions)
    (hsubs : ch'.subscribers = ch.subscribers)
    (hsess : ch'.sessions = ch.sessions.insert m (ch.attachAll ⟨strategy, state⟩))
    (hnew : Creation i (c, m) (e.ledger (c, m)) preamble state strategy)
    (hbuilt : A.valid → BuiltAs state strategy) :
    LedgerSteps A i k (e.ledger k) ((e.withRelay c m preamble ch').ledger k) := by
  have hchannel : (e.withRelay c m preamble ch').channels[k.1]?.map (·.subscribers)
      = e.channels[k.1]?.map (·.subscribers) := by
    rw [withRelay_channels, BTreeMap.get_insert]
    split
    case isTrue hc => simp [← hc, hch, hsubs]
    case isFalse => rfl
  have hsession : (e.withRelay c m preamble ch').session? k.1 k.2 = _ := session?_withRelay preamble hch hsess
  have hmeta := sessionMeta_recordSessionCreated (k := k) { e with
    channels := e.channels.insert c ch'
    sessionPreambles := e.sessionPreambles.insert (c, m) preamble } c m
  have hpre : (e.withRelay c m preamble ch').sessionPreambles[k]?
      = if (c, m) = k then some preamble else e.sessionPreambles[k]? := by
    obtain ⟨clock, sessionMeta, hrelay⟩ := e.withRelay_eq c m preamble ch'
    rw [hrelay]
    exact BTreeMap.get_insert _ _ _ _
  -- only the session, its record and its preamble are new
  have hview : (e.withRelay c m preamble ch').ledger k = { e.ledger k with
      session := (e.withRelay c m preamble ch').session? k.1 k.2
      info := (e.withRelay c m preamble ch').sessionMeta[k]?
      preamble := (e.withRelay c m preamble ch').sessionPreambles[k]? } := by
    obtain ⟨clock, sessionMeta, hrelay⟩ := e.withRelay_eq c m preamble ch'
    simp only [ledger, hchannel]
    rw [hrelay]
  rw [hview, hsession, hpre, show (e.withRelay c m preamble ch').sessionMeta[k]? = _ from hmeta]
  by_cases hk : (c, m) = k
  · subst hk
    simp only [and_self, if_true]
    exact .single (.created (session?_eq_none_of_not_mem hch hm) (by simp [ledger, hch]) hnew hbuilt rfl)
  · have hne : ¬ (c = k.1 ∧ m = k.2) := fun h => hk (Prod.ext h.1 h.2)
    rw [if_neg hk, if_neg hne, if_neg hk]
    exact .refl

/-! ## The other maps -/

omit [Crates] in
/-- A chunk is parked for the session of its key. -/
theorem ledger_parkChunk (e : Engine RsStrategy Wire) (c : ChannelId) (m : MessageId)
    (chunkId : Nat) (payload : Bytes) :
    (e.parkChunk c m chunkId payload).ledger k = { e.ledger k with
      parked := if (c, m) = k
        then some (parkIn ((e.ledger (c, m)).parked.getD []) ⟨chunkId, payload, e.now.1⟩)
        else (e.ledger k).parked } := by
  unfold parkChunk
  simp only [ledger, now, BTreeMap.get_insert, ExtTreeMap.getD_eq_getD_getElem?]
  rfl

omit [Crates] in
/-- A function applied to one session, seen from its key. -/
theorem ledger_modifySession (e : Engine RsStrategy Wire) (c : ChannelId) (m : MessageId)
    (f : Session RsStrategy → Session RsStrategy) :
    (e.modifySession c m f).ledger k = { e.ledger k with
      session := if (c, m) = k then (e.ledger k).session.map f else (e.ledger k).session } := by
  have hframe : DrainFrame c m e (e.modifySession c m f) := .modifySession e f
  by_cases hk : (c, m) = k
  · subst hk
    rw [hframe.ledger_self, session?_modifySession_self, if_pos rfl]
    rfl
  · rw [hframe.ledger_ne hk, if_neg hk]
    rfl

/-- A session operation, seen from any key. -/
theorem ledger_session {f : Session RsStrategy → Session RsStrategy}
    (hstep : ∀ {L s}, L.session = some s → LedgerStep A i (c, m) L { L with session := some (f s) }) :
    LedgerSteps A i k (e.ledger k) ((e.modifySession c m f).ledger k) := by
  rw [ledger_modifySession]
  split
  case isTrue hk =>
    subst hk
    cases hs : (e.ledger (c, m)).session with
    | none =>
      rw [Option.map_none, ← hs]
    | some s => exact .single (hstep hs)
  case isFalse => exact .refl

omit [Crates] in
/-- A session that is marked terminal is marked with the time that was read, unless it was marked before. -/
theorem sessionMeta_markSessionTerminal (e : Engine RsStrategy Wire) (c : ChannelId)
    (m : MessageId) :
    (e.markSessionTerminal c m).sessionMeta[k]?
      = if (c, m) = k then e.sessionMeta[k]?.map (·.markTerminal e.now.1) else e.sessionMeta[k]? := by
  unfold markSessionTerminal
  split
  -- the session has no record
  case h_1 hnone =>
    split
    case isTrue hk =>
      subst hk
      rw [hnone]
      rfl
    case isFalse => rfl
  case h_2 info hinfo =>
    split
    -- the record is marked already
    case h_1 t ht =>
      split
      case isTrue hk =>
        subst hk
        rw [hinfo]
        obtain ⟨createdAt, terminalAt⟩ := info
        cases ht
        rfl
      case isFalse => rfl
    case h_2 ht =>
      refine (BTreeMap.get_insert _ _ _ _).trans ?_
      split
      case isTrue hk =>
        subst hk
        rw [hinfo]
        simp [SessionMeta.markTerminal, ht]
      case isFalse => rfl

/-- A decode, seen from any key. -/
theorem ledger_afterDecode (e : Engine RsStrategy Wire) (c : ChannelId) (m : MessageId)
    (session : Session RsStrategy) :
    (e.afterDecode c m session).ledger k = { e.ledger k with
      session := if (c, m) = k then (e.ledger k).session.map fun _ => session.decodeAndFinish.2
        else (e.ledger k).session
      info := if (c, m) = k then (e.ledger k).info.map (·.markTerminal e.now.1)
        else (e.ledger k).info } := by
  have hmeta := sessionMeta_markSessionTerminal (k := k)
    (e.modifySession c m fun _ => session.decodeAndFinish.2) c m
  have hview : (e.afterDecode c m session).ledger k
      = { (e.modifySession c m fun _ => session.decodeAndFinish.2).ledger k with
        info := ((e.modifySession c m fun _ => session.decodeAndFinish.2).markSessionTerminal
          c m).sessionMeta[k]? } := by
    obtain ⟨clock, sessionMeta, hmark⟩ := markSessionTerminal_frame
      (e.modifySession c m fun _ => session.decodeAndFinish.2) c m
    unfold afterDecode
    rw [hmark]
    cases session.decodeAndFinish.1 <;> rfl
  rw [hview, hmeta, ledger_modifySession]
  rfl

/-- A session is decoded. -/
theorem decoded_ledger {session : Session RsStrategy} (hdecodes : A.decodes)
    (hs : e.session? c m = some session) :
    LedgerSteps A i k (e.ledger k) ((e.afterDecode c m session).ledger k) := by
  rw [ledger_afterDecode]
  by_cases hk : (c, m) = k
  · subst hk
    have hsession : (e.ledger (c, m)).session = some session := hs
    rw [if_pos rfl, if_pos rfl, hsession]
    exact .single (.decoded hdecodes hsession)
  · rw [if_neg hk, if_neg hk]

/-- An outcome that is fed back, seen from its key. -/
theorem ledger_afterResolve (e : Engine RsStrategy Wire) (peer : PeerId) (c : ChannelId)
    (m : MessageId) (token : DispatchHandle) (ok : Bool) :
    (e.afterResolve peer c m token ok).ledger (c, m) = { e.ledger (c, m) with
      pending := Function.update (e.ledger (c, m)).pending token none
      session := (e.ledger (c, m)).session.map (·.chunkSent peer token ok) } := by
  have hview : { e with pendingSends := e.pendingSends.erase (c, m, token) }.ledger (c, m)
      = { e.ledger (c, m) with
        pending := Function.update (e.ledger (c, m)).pending token none } := by
    rw [← pending_erase]
    rfl
  unfold afterResolve
  rw [ledger_modifySession, if_pos rfl, hview]

/-- A result comes, for a chunk that is pending. -/
theorem resolved_ledger {peer : PeerId} {token : DispatchHandle} {ok : Bool}
    (hi : i = .event (.chunkSendResult peer c m token ok))
    (hpending : (c, m, token) ∈ e.pendingSends) :
    LedgerSteps A i k (e.ledger k) ((e.afterResolve peer c m token ok).ledger k) := by
  by_cases hk : (c, m) = k
  · subst hk
    rw [ledger_afterResolve]
    refine .single (.resolved hi ?_)
    obtain ⟨p, hp⟩ := (BTreeMap.mem_iff_get _ _).mp hpending
    simp [ledger, hp]
  · have hview : { e with pendingSends := e.pendingSends.erase (c, m, token) }.ledger k
        = e.ledger k := by
      simp only [ledger]
      congr 1
      funext h
      rw [BTreeMap.get_erase, if_neg]
      intro hkey
      cases hkey
      exact hk rfl
    unfold afterResolve
    rw [ledger_modifySession, if_neg hk, hview]

omit [Crates] in
/-- A disposed session leaves its tombstone, and no other ledger changes. -/
theorem ledger_disposeSession (e : Engine RsStrategy Wire) (c : ChannelId) (m : MessageId)
    (now : Instant) :
    (e.disposeSession c m now).ledger k
      = if (c, m) = k then (e.ledger k).dispose now else e.ledger k := by
  have hsubs : (e.disposeSession c m now).channels[k.1]?.map (·.subscribers)
      = e.channels[k.1]?.map (·.subscribers) := by
    show (e.channels.modify c (·.removeSession m))[k.1]?.map _ = _
    rw [BTreeMap.get_modify]
    split
    case isTrue hc =>
      rw [← hc, Option.map_map]
      rfl
    case isFalse => rfl
  have hsession := session?_disposeSession e k.1 c k.2 m now
  by_cases hk : (c, m) = k
  · subst hk
    rw [if_pos rfl]
    rw [if_pos ⟨rfl, rfl⟩] at hsession
    -- the pending sends of the session go with it
    have hpending : (fun h : DispatchHandle => (e.disposeSession c m now).pendingSends[(c, m, h)]?)
        = fun _ => none := by
      funext h
      show (e.pendingSends.filter fun k _ => !(k.1 = c && k.2.1 = m))[(c, m, h)]? = none
      rw [BTreeMap.get_filter]
      simp
    unfold ledger Ledger.dispose
    rw [hsubs, hsession, hpending]
    simp [disposeSession]
  · have hne : ¬ (c = k.1 ∧ m = k.2) := fun h => hk (Prod.ext h.1 h.2)
    rw [if_neg hk]
    rw [if_neg hne] at hsession
    have hpending :
        (fun h : DispatchHandle => (e.disposeSession c m now).pendingSends[(k.1, k.2, h)]?)
        = fun h => e.pendingSends[(k.1, k.2, h)]? := by
      funext h
      exact e.pendingSends_disposeSession now h hne
    unfold ledger
    rw [hsubs, hsession, hpending]
    simp [disposeSession, BTreeMap.get_erase, BTreeMap.get_insert, hk]

omit [Crates] in
/-- A sweep lets tombstones and parked chunks go that are old. -/
theorem ledger_afterSweep (e : Engine RsStrategy Wire) (now : Instant) :
    (e.afterSweep now).ledger k = { e.ledger k with
      tombstone := (e.ledger k).tombstone.filter (now - · ≤ e.config.tombstoneTtl)
      parked := (e.ledger k).parked.bind (expireParked now) } := by
  unfold afterSweep
  simp only [ledger, BTreeMap.get_filter, ExtTreeMap.getElem?_map]
  congr 1
  cases e.parkedChunks[k]? <;> rfl

/-! ## Actions and steps -/

/-- The terms that the premises put the engine's actions under. -/
def premisedTerms (A : Premises) : Terms Wire where
  drains e k := ∀ e' ∈ drainRounds k.1 k.2 (e.drainFuel k.1 k.2) e,
    ∀ s ∈ e'.session? k.1 k.2, A.polls s
  decodes := A.decodes
  sweeps := A.sweeps

/-- **What one action does to one ledger.** -/
theorem Act.ledger (h : Act i (premisedTerms A) e e') (hvalid : A.valid → i.Valid ∧ e.RelayFactories)
    (k : SessionKey) : LedgerSteps A i k (e.ledger k) (e'.ledger k) := by
  cases h with
  | greeted | rejected | ticked | scheduled | received => exact .refl
  -- messages of no session
  | @announced msg hmsg hto =>
    refine ledger_submitted (Prod.ext rfl rfl) ?_
    cases msg <;> first | exact hmsg.elim | simp [NetSend.sessionKey?]
  | registered => exact ledger_submitted (Prod.ext rfl rfl) (by simp [NetSend.sessionKey?])
  | hosted hi hnew => exact hosted_ledger hi hnew
  | enrolled hi => exact enrolled_ledger hi
  | unsubscribed hi => exact unsubscribed_ledger hi
  | disconnected hi =>
    rw [disconnected_ledger]
    exact .single (.disconnected hi)
  | @refusedOpen c m preamble ch ch' err hch hopen =>
    -- the channel is as it was but for its factory
    have hsame : ch'.subscribers = ch.subscribers ∧ ch'.sessions = ch.sessions := by
      rcases Channel.openSession_error hopen with rfl | ⟨factory, -, rfl⟩ <;> exact ⟨rfl, rfl⟩
    rw [ledger_insert_same hch hsame.1 hsame.2]
  | @openedRelay peer c m preamble update ch ch' hi htomb hch hopen =>
    obtain ⟨hm, strategy, factory, hcall, rfl⟩ := Channel.openSession_ok hopen
    have hnew : Creation i (c, m) (e.ledger (c, m)) preamble .consuming strategy :=
      .relay hi (ExtTreeMap.getElem?_eq_none htomb)
    refine created_ledger hch hm rfl rfl hnew fun hA => ?_
    -- the factory is a relay factory, and built a relay
    obtain ⟨decoded, config, seed, hnew⟩ := (hvalid hA).2.newRelay hch hcall
    exact .relay hnew
  | @startedOrigin c m strategy preamble ch ch' hi hch hstart =>
    obtain ⟨hm, rfl⟩ := Channel.startOriginSession_ok hstart
    have hnew : Creation i (c, m) (e.ledger (c, m)) preamble .origin strategy := .origin hi
    refine created_ledger hch hm rfl rfl hnew fun hA => ?_
    have hi' := (hvalid hA).1
    rw [hi] at hi'
    obtain ⟨payload, config, seed, hnew⟩ := hi'
    exact .origin hnew
  | @ensured c m peer hto => exact ((ensureSessionOpen_control e c m peer (.inl hto)).batch []).ledger k
  | @drained c m hD => exact (e.drainSession_batch c m hD).ledger k
  | @parked peer c m chunkId payload htomb hnone hi =>
    rw [ledger_parkChunk]
    split
    case isTrue hk =>
      subst hk
      exact .single (.parked hi (ExtTreeMap.getElem?_eq_none htomb) hnone)
    case isFalse => exact .refl
  | @unparked c m =>
    by_cases hk : (c, m) = k
    · subst hk
      have hview : { e with parkedChunks := e.parkedChunks.erase (c, m) }.ledger (c, m)
          = { e.ledger (c, m) with parked := none } := by
        simp [Engine.ledger, session?]
      rw [hview]
      exact .single .unparked
    · have hview : { e with parkedChunks := e.parkedChunks.erase (c, m) }.ledger k = e.ledger k := by
        simp [Engine.ledger, session?, BTreeMap.get_erase, hk]
      rw [hview]
  | @took c m chunkId payload hi =>
    rw [takeChunk_eq]
    exact ledger_session fun hs => .took hi hs
  | decoded hdecodes hs => exact decoded_ledger hdecodes hs
  | resolved hi hpending => exact resolved_ledger hi hpending
  | detached hi => exact ledger_session fun hs => .detached hi hs
  | disposed hsweeps =>
    rw [ledger_disposeSession]
    split
    · exact .single (.disposed hsweeps)
    · exact .refl
  | swept hsweeps =>
    rw [ledger_afterSweep]
    exact .single (.swept hsweeps)

/-- A sequence of actions, in the ledger of any key. -/
theorem Acts.ledger (h : Acts i (premisedTerms A) e e') (hvalid : A.valid → i.Valid ∧ e.RelayFactories)
    (k : SessionKey) : LedgerSteps A i k (e.ledger k) (e'.ledger k) := by
  induction h with
  | refl => exact .refl
  | @tail e₁ e₂ hacts hact ih =>
    refine ih.trans (hact.ledger (fun hA => ⟨(hvalid hA).1, ?_⟩) k)
    obtain ⟨hi, he⟩ := hvalid hA
    exact Acts.induct hacts (fun hact he => hact.relayFactories (hostsRelays_of_valid hi) he) he

/-- Every session the step polls satisfies the premises. -/
def StepPolls (P : Session RsStrategy → Prop) (e : Engine RsStrategy Wire) (i : Input RsStrategy) :
    Prop :=
  ∀ call ∈ e.drainCalls i,
    ∀ e' ∈ drainRounds call.2.1 call.2.2 (call.1.drainFuel call.2.1 call.2.2) call.1,
      ∀ s ∈ e'.session? call.2.1 call.2.2, P s

/-- **Every step is a sequence of changes of every ledger.** -/
theorem step_ledger (i : Input RsStrategy) (e : Engine RsStrategy Wire) (k : SessionKey)
    (hvalid : A.valid → i.Valid ∧ e.RelayFactories) (hpolls : e.StepPolls A.polls i)
    (hdecodes : A.decodes) (hsweeps : A.sweeps) :
    LedgerSteps A i k (e.ledger k) ((e.step i).2.ledger k) :=
  Acts.ledger (step_acts_of_drains (D := (premisedTerms A)) hdecodes hsweeps i e hpolls) hvalid k

/-! ## The phases of a step -/

/-- The premises of a step up to its decode. -/
abbrev handling (A : Premises) : Premises :=
  { A with decodes := False, sweeps := False }

/-- A step up to its decoding, in every ledger. -/
theorem beforeDecode_ledger (i : Input RsStrategy) (e : Engine RsStrategy Wire) (k : SessionKey)
    (hvalid : A.valid → i.Valid ∧ e.RelayFactories) (hpolls : e.StepPolls A.polls i) :
    LedgerSteps (handling A) i k (e.ledger k) ((e.beforeDecode i).2.ledger k) :=
  Acts.ledger (A := handling A) (beforeDecode_acts i e hpolls) hvalid k

/-- The decode and the sweep of a step, which the input has no part in and which poll nothing. -/
theorem afterDecode_ledger_of (hdecodes : A.decodes) (hsweeps : A.sweeps) (i : Input RsStrategy)
    (e : Engine RsStrategy Wire) (k : SessionKey)
    (hvalid : A.valid → (e.beforeDecode i).2.RelayFactories) :
    LedgerSteps A .recv k ((e.beforeDecode i).2.ledger k) ((e.step i).2.ledger k) := by
  have hdecode : Acts .recv (premisedTerms A) (e.beforeDecode i).2 (e.beforeSweep i) := by
    unfold beforeSweep
    rcases e.beforeDecode i with ⟨_ | k, e₁⟩
    · exact .refl
    · exact maybeDecodeAndDeliver_acts hdecodes k.1 k.2 e₁
  refine Acts.ledger (i := .recv) (A := A) ?_ (fun hA => ⟨trivial, hvalid hA⟩) k
  rw [step_eq]
  cases i with
  | event ev => exact hdecode.trans (maybeRunCleanup_acts hsweeps _)
  | subscribe | connect | publish | recv => exact hdecode

/-- The rest of the step: the decoding and the sweep, which no input feeds. -/
theorem afterDecode_ledger (i : Input RsStrategy) (e : Engine RsStrategy Wire) (k : SessionKey) :
    LedgerSteps .none .recv k ((e.beforeDecode i).2.ledger k) ((e.step i).2.ledger k) :=
  afterDecode_ledger_of trivial trivial i e k False.elim

/-- The sweep of a step, which the input has no part in and which decodes nothing. -/
theorem afterSweep_ledger (i : Input RsStrategy) (e : Engine RsStrategy Wire) (k : SessionKey) :
    LedgerSteps { Premises.none with decodes := False } .recv k ((e.beforeSweep i).ledger k)
      ((e.step i).2.ledger k) := by
  refine Acts.ledger (A := { Premises.none with decodes := False }) ?_ False.elim k
  rw [step_eq]
  cases i with
  | event ev => exact maybeRunCleanup_acts trivial _
  | subscribe | connect | publish | recv => exact .refl

end Steps

/-! ## Runs -/

section Runs

variable [Crates] {A : Premises} {k : SessionKey}

omit [Crates] in
/-- A fresh engine holds nothing about any key. -/
theorem ledger_withConfig (localPeer : PeerId) (net : Wire) (delivered : Sink)
    (config : EngineConfig) (clock : Clock) :
    (withConfig localPeer net delivered config clock).ledger k
      = ⟨none, none, none, none, none, fun _ => none, none, none, [], net.log⟩ := by
  simp [ledger, withConfig, session?]

/-- What every change preserves holds of every ledger after every run. -/
theorem run_ledger_induct {Q : Ledger → Prop} (e : Engine RsStrategy Wire)
    (inputs : List (Input RsStrategy))
    (hstep : ∀ {i L L'}, LedgerStep .none i k L L' → Q L → Q L') (he : Q (e.ledger k)) :
    Q ((e.run inputs).ledger k) := by
  refine run_induct (P := fun e => Q (e.ledger k)) (fun e i _ he => ?_) he
  exact (step_ledger (A := .none) i e k False.elim (fun _ _ _ _ _ _ => trivial) trivial
    trivial).induct hstep he

end Runs

end Engine

end Ethp2p
