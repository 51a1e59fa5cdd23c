/-
# Ethp2p.Parking — a chunk that comes before its session.

A chunk without a session is parked and replayed when the `SessionOpen` comes: the engine hands over
the parked chunks one after the other, drains once and decodes once.  A chunk of a live session is
taken, drained and, if it completes the message, decoded on the spot.

`Account` is what both leave of a message, drains aside, and `foldl_arrive_eq_replay` says that the
two are the same function of it.  It rides on two facts about a session: once it has turned to
`Decoding` it takes no chunk, and a decode in any other state does nothing but stamp it terminal.  The
engine refines the account (`Engine.Holds`): a drain changes neither a session's state nor its store,
and neither do the takes and the decode read anything else of the strategy.
-/
import Ethp2p.AtMostOnce
import Ethp2p.Lifecycle

namespace Ethp2p

open Std

/-! ## Sessions with the same store -/

section Alike

variable [Crates]

namespace RsStrategy

variable {s s' : RsStrategy}

omit [Crates] in
/-- What can be reconstructed, and into what, is read off the shards. -/
theorem SameStore.canReconstruct (h : s.SameStore s') : s'.canReconstruct = s.canReconstruct := by
  unfold RsStrategy.canReconstruct acceptedCount
  rw [h.preamble_eq, h.chunks_eq]

/-- The verdict on a chunk is read off the store. -/
theorem SameStore.takeChunk (h : s.SameStore s') (idx : Nat) (data : Bytes) :
    (s'.takeChunk idx data).1 = (s.takeChunk idx data).1
      ∧ SameStore (s.takeChunk idx data).2 (s'.takeChunk idx data).2 := by
  have hverify : Ethp2p.verifyChunk s'.preamble idx data = Ethp2p.verifyChunk s.preamble idx data := by
    rw [h.preamble_eq]
  unfold RsStrategy.takeChunk
  rw [h.totalShards_eq, h.chunkAt_eq, h.canReconstruct, hverify]
  split
  · exact ⟨rfl, h⟩
  split
  · exact ⟨rfl, h⟩
  cases Ethp2p.verifyChunk s.preamble idx data with
  | accepted =>
    have hstored : SameStore { s with chunks := s.chunks.set idx (some data) }
        { s' with chunks := s'.chunks.set idx (some data) } :=
      ⟨h.config_eq, h.preamble_eq, congrArg (·.set idx (some data)) h.chunks_eq⟩
    have hfull := hstored.canReconstruct
    dsimp only at hfull ⊢
    rw [hfull]
    exact ⟨rfl, hstored⟩
  | _ => exact ⟨rfl, h⟩

theorem SameStore.reconstruct (h : s.SameStore s') : s'.reconstruct = s.reconstruct := by
  simp only [RsStrategy.reconstruct, heldPairs, h.preamble_eq, h.chunks_eq]

end RsStrategy

namespace Session

variable {s s' : Session RsStrategy}

/-- The sessions are in the same state and hold the same. -/
structure Alike (s s' : Session RsStrategy) : Prop where
  state_eq : s'.state = s.state
  store : s.strategy.SameStore s'.strategy

/-- Sessions that are alike take a chunk alike. -/
theorem Alike.takeChunk (h : s.Alike s') (idx : Nat) (data : Bytes) :
    s'.completes idx data = s.completes idx data
      ∧ (s.takeChunk idx data).2.Alike (s'.takeChunk idx data).2 := by
  obtain ⟨hverdict, hstore⟩ := h.store.takeChunk idx data
  unfold completes Session.takeChunk
  rw [h.state_eq]
  cases hstate : s.state with
  | consuming =>
    dsimp only
    rcases htake : Strategy.takeChunk s.strategy idx data with ⟨err | outcome, strategy⟩
    all_goals
      rcases htake' : Strategy.takeChunk s'.strategy idx data with ⟨err' | outcome', strategy'⟩
      all_goals
        rw [show s.strategy.takeChunk idx data = _ from htake,
          show s'.strategy.takeChunk idx data = _ from htake'] at hverdict hstore
        cases hverdict
    · exact ⟨rfl, rfl, hstore⟩
    · by_cases hdone : (outcome.complete && outcome.verdict = .accepted) = true
      · simp only [if_pos hdone]
        exact ⟨trivial, rfl, hstore⟩
      · simp only [if_neg hdone]
        exact ⟨trivial, rfl, hstore⟩
  | decoding | reconstructed | origin | failed => exact ⟨rfl, h⟩

/-- Sessions that are alike are decoded alike. -/
theorem Alike.decodeAndFinish (h : s.Alike s') :
    s'.decodeAndFinish.1 = s.decodeAndFinish.1 ∧ s.decodeAndFinish.2.Alike s'.decodeAndFinish.2 := by
  have hdecode : Strategy.decode s'.strategy = Strategy.decode s.strategy := h.store.reconstruct
  unfold Session.decodeAndFinish
  rw [h.state_eq, hdecode]
  split
  · exact ⟨rfl, h⟩
  · cases Strategy.decode s.strategy with
    | ok payload => exact ⟨rfl, rfl, h.store⟩
    | error err => exact ⟨rfl, rfl, h.store⟩

/-- Only a `Consuming` session takes a chunk. -/
theorem takeChunk_done (h : s.state ≠ .consuming) (idx : Nat) (data : Bytes) :
    s.completes idx data = false ∧ (s.takeChunk idx data).2 = s := by
  unfold completes Session.takeChunk
  cases hstate : s.state with
  | consuming => exact absurd hstate h
  | decoding | reconstructed | origin | failed => exact ⟨rfl, rfl⟩

/-- A chunk that does not complete the message brings no session to `Decoding`. -/
theorem takeChunk_incomplete {idx : Nat} {data : Bytes} (hcomplete : s.completes idx data = false)
    (hs : s.state ≠ .decoding) : (s.takeChunk idx data).2.state ≠ .decoding := by
  unfold completes Session.takeChunk at hcomplete
  unfold Session.takeChunk
  cases hstate : s.state with
  | consuming =>
    simp only [hstate] at hcomplete
    dsimp only
    rcases htake : Strategy.takeChunk s.strategy idx data with ⟨err | outcome, strategy⟩
    · nofun
    · simp only [htake] at hcomplete
      by_cases hdone : (outcome.complete && outcome.verdict = .accepted) = true
      · simp only [if_pos hdone] at hcomplete
        rw [hcomplete] at hdone
        cases hdone
      · simp only [if_neg hdone]
        nofun
  | decoding | reconstructed | origin | failed => exact hs

/-- A session that is not `Decoding` is not decoded. -/
theorem decodeAndFinish_idle (h : s.state ≠ .decoding) :
    s.decodeAndFinish = (.error (.notDecoding s.state), s) := by
  unfold decodeAndFinish
  rw [if_pos h]

end Session

/-- Attaching the subscribers of a channel changes no store. -/
theorem Channel.attachAll_alike (ch : Channel RsStrategy) (s : Session RsStrategy) :
    s.Alike (ch.attachAll s) := by
  unfold Channel.attachAll
  induction ch.subscribers.toList generalizing s with
  | nil => exact ⟨rfl, .refl _⟩
  | cons p ps ih =>
    have hrest := ih (s.attachPeer p)
    exact ⟨hrest.state_eq, (s.strategy.attachPeer_sameStore p).trans hrest.store⟩

end Alike

/-! ## Accounts -/

/-- What is held of one message between two events. -/
structure Account where
  session : Session RsStrategy
  terminal : Bool
  delivered : Sink

namespace Account

section Account

variable [Crates] {c : ChannelId} {m : MessageId}

/-- The session takes a chunk. -/
def take (a : Account) (chunk : Nat × Bytes) : Account :=
  { a with session := (a.session.takeChunk chunk.1 chunk.2).2 }

/-- The session is decoded, and its payload delivered. -/
def settle (c : ChannelId) (m : MessageId) (a : Account) : Account where
  session := a.session.decodeAndFinish.2
  terminal := true
  delivered := match a.session.decodeAndFinish.1 with
    | .ok payload => (a.delivered.trySend ⟨c, m, payload⟩).2
    | .error _ => a.delivered

/-- A chunk arrives at the live session. -/
def arrive (c : ChannelId) (m : MessageId) (a : Account) (chunk : Nat × Bytes) : Account :=
  if a.session.completes chunk.1 chunk.2 then (a.take chunk).settle c m else a.take chunk

/-- The session takes chunks in turn; whether any of them, or one before, completed the message. -/
def takeAll : List (Nat × Bytes) → Bool → Account → Bool × Account
  | [], anyComplete, a => (anyComplete, a)
  | chunk :: chunks, anyComplete, a =>
    takeAll chunks (anyComplete || a.session.completes chunk.1 chunk.2) (a.take chunk)

/-- The session is decoded if it was found complete. -/
def close (c : ChannelId) (m : MessageId) (r : Bool × Account) : Account :=
  if r.1 then r.2.settle c m else r.2

/-- Chunks are replayed: taken one after the other, then decoded at most once. -/
def replay (c : ChannelId) (m : MessageId) (a : Account) (chunks : List (Nat × Bytes)) : Account :=
  close c m (takeAll chunks false a)

/-- An account that is done takes no more chunks. -/
theorem take_done {a : Account} (h : a.session.state ≠ .consuming) (chunk : Nat × Bytes) :
    a.take chunk = a := by
  unfold take
  rw [(Session.takeChunk_done h chunk.1 chunk.2).2]

/-- An account that is done takes no more chunks, however many come. -/
theorem takeAll_done {a : Account} (h : a.session.state ≠ .consuming) (chunks : List (Nat × Bytes))
    (anyComplete : Bool) : takeAll chunks anyComplete a = (anyComplete, a) := by
  induction chunks with
  | nil => rfl
  | cons chunk chunks ih =>
    rw [takeAll, take_done h, (Session.takeChunk_done h chunk.1 chunk.2).1, Bool.or_false, ih]

/-- An account that is done does not deliver again. -/
theorem foldl_arrive_done {a : Account} (h : a.session.state ≠ .consuming) (chunks : List (Nat × Bytes)) :
    chunks.foldl (arrive c m) a = a := by
  induction chunks with
  | nil => rfl
  | cons chunk chunks ih =>
    have hnext : arrive c m a chunk = a := by
      unfold arrive
      rw [(Session.takeChunk_done h chunk.1 chunk.2).1, take_done h]
      rfl
    rw [List.foldl_cons, hnext, ih]

/-- Takes read no stamp. -/
theorem takeAll_stamped (chunks : List (Nat × Bytes)) (anyComplete : Bool) (a : Account)
    (terminal : Bool) :
    takeAll chunks anyComplete { a with terminal }
      = ((takeAll chunks anyComplete a).1, { (takeAll chunks anyComplete a).2 with terminal }) := by
  induction chunks generalizing anyComplete a with
  | nil => rfl
  | cons chunk chunks ih => exact ih (anyComplete || a.session.completes chunk.1 chunk.2) (a.take chunk)

/-- What was complete before a replay's next chunk is complete after it. -/
theorem takeAll_complete (chunks : List (Nat × Bytes)) (a : Account) :
    (takeAll chunks true a).1 = true := by
  induction chunks generalizing a with
  | nil => rfl
  | cons chunk chunks ih => exact ih (a.take chunk)

/-- Decoding a session that is not `Decoding` stamps it terminal. -/
theorem settle_idle {a : Account} (h : a.session.state ≠ .decoding) :
    a.settle c m = { a with terminal := true } := by
  unfold settle
  rw [Session.decodeAndFinish_idle h]

/-- **Chunks that arrive one by one leave what the replay of them leaves**, where an earlier one that
was found complete has already been stamped. -/
theorem foldl_arrive_eq_close (chunks : List (Nat × Bytes)) (anyComplete : Bool) {a : Account}
    (hstate : a.session.state ≠ .decoding) (hterminal : anyComplete → a.terminal) :
    chunks.foldl (arrive c m) a = close c m (takeAll chunks anyComplete a) := by
  -- over the chunks still to come; `anyComplete` says whether one before them completed
  induction chunks generalizing anyComplete a with
  | nil =>
    rw [List.foldl_nil, takeAll, close]
    split
    case isTrue hany =>
      rw [settle_idle hstate]
      obtain ⟨session, terminal, delivered⟩ := a
      exact congrArg (Account.mk session · delivered) (hterminal hany)
    case isFalse => rfl
  | cons chunk chunks ih =>
    rw [List.foldl_cons, takeAll, arrive]
    cases hcomplete : a.session.completes chunk.1 chunk.2 with
    | false =>
      rw [Bool.or_false, if_neg Bool.false_ne_true]
      exact ih anyComplete (Session.takeChunk_incomplete hcomplete hstate) hterminal
    | true =>
      rw [Bool.or_true, if_pos rfl]
      by_cases hdecoding : (a.take chunk).session.state = .decoding
      · -- the rest finds the session settled, or `Decoding`: it is not taken either way
        have hsettled : ((a.take chunk).settle c m).session.state ≠ .consuming := by
          rcases Session.decodeAndFinish_settles hdecoding with hdone | hdone <;>
            exact fun h => nomatch hdone.symm.trans h
        have hwaiting : (a.take chunk).session.state ≠ .consuming := by
          rw [hdecoding]
          nofun
        rw [foldl_arrive_done hsettled, takeAll_done hwaiting, close, if_pos rfl]
      · -- a complete message that is not decoded yet: only the stamp is set, and it is set once
        have hrest := ih true (a := { a.take chunk with terminal := true }) hdecoding
          fun _ => rfl
        rw [settle_idle hdecoding, hrest, close, close, takeAll_stamped, if_pos (takeAll_complete ..),
          if_pos (takeAll_complete ..)]
        rfl

/-- **The replay of chunks is their arrival one by one.** -/
theorem foldl_arrive_eq_replay (a : Account) (h : a.session.state ≠ .decoding)
    (chunks : List (Nat × Bytes)) : chunks.foldl (arrive c m) a = a.replay c m chunks :=
  foldl_arrive_eq_close chunks false h nofun

end Account

end Account

/-! ## The engine keeps the account -/

namespace Engine

section Sweeps

variable {e : Engine RsStrategy Wire} {c : ChannelId} {m : MessageId} {k : SessionKey} {now : Instant}

/-- Disposing sessions in a row disposes each of them. -/
theorem ledger_disposeEach (keys : List SessionKey) (now : Instant) (e : Engine RsStrategy Wire)
    (k : SessionKey) :
    (keys.foldl (fun e k => e.disposeSession k.1 k.2 now) e).ledger k
      = if k ∈ keys then (e.ledger k).dispose now else e.ledger k := by
  induction keys generalizing e with
  | nil => rfl
  | cons k' keys ih =>
    rw [List.foldl_cons, ih, ledger_disposeSession]
    by_cases hk : (k'.1, k'.2) = k
    · rw [if_pos hk, if_pos (List.mem_cons.mpr (.inl hk.symm))]
      split <;> rfl
    · have hmem : k ∈ k' :: keys ↔ k ∈ keys :=
        List.mem_cons.trans (or_iff_right fun h => hk h.symm)
      rw [if_neg hk]
      simp only [hmem]

/-- The sessions a sweep disposes are those whose record has expired. -/
theorem mem_expiredKeys :
    k ∈ e.expiredKeys now ↔ ∃ info, e.sessionMeta[k]? = some info ∧ e.isExpired now info := by
  unfold expiredKeys
  rw [ExtTreeMap.mem_keys, BTreeMap.mem_iff_get, BTreeMap.get_filter]
  simp [Option.filter_eq_some_iff]

/-- A sweep, seen from one key. -/
theorem ledger_runCleanup (e : Engine RsStrategy Wire) (now : Instant) (k : SessionKey) :
    k ∈ e.expiredKeys now ∧ (e.runCleanup now).session? k.1 k.2 = none
      ∨ (e.runCleanup now).ledger k = { e.ledger k with
        tombstone := (e.ledger k).tombstone.filter (now - · ≤ e.config.tombstoneTtl)
        parked := (e.ledger k).parked.bind (expireParked now) } := by
  have hdispose := ledger_disposeEach (e.expiredKeys now) now e k
  obtain ⟨_, _, _, _, _, _, _, hframe⟩ := disposeEach_frame (e.expiredKeys now) now e
  have hconfig := congrArg Engine.config hframe
  have hsweep : e.runCleanup now = ((e.expiredKeys now).foldl
    (fun (e : Engine RsStrategy Wire) k => e.disposeSession k.1 k.2 now) e).afterSweep now := rfl
  by_cases hk : k ∈ e.expiredKeys now
  · have hgone : ((e.runCleanup now).ledger k).session = none := by
      rw [hsweep, ledger_afterSweep, hdispose, if_pos hk]
      rfl
    exact .inl ⟨hk, hgone⟩
  · refine .inr ?_
    rw [hsweep, ledger_afterSweep, hdispose, if_neg hk, hconfig]

/-- The cleanup check, seen from a key it does not dispose of. -/
theorem ledger_maybeRunCleanup (e : Engine RsStrategy Wire) (k : SessionKey)
    (hk : e.sessionMeta[k]? = none ∨ (e.maybeRunCleanup.session? k.1 k.2).isSome) :
    ∃ tombstone parked, e.maybeRunCleanup.ledger k = { e.ledger k with tombstone, parked }
      ∧ (e.tombstones[k]? = none → tombstone = none)
      ∧ (e.parkedChunks[k]? = none → parked = none) := by
  unfold maybeRunCleanup at hk ⊢
  dsimp only at hk ⊢
  split at hk
  case isTrue hearly =>
    rw [if_pos hearly]
    exact ⟨_, _, rfl, id, id⟩
  case isFalse hlate =>
    rw [if_neg hlate]
    rcases ledger_runCleanup { e.now.2 with nextCleanup := e.now.1 + e.now.2.config.cleanupInterval }
      e.now.1 k with ⟨hexpired, hgone⟩ | hkept
    · exfalso
      rcases hk with hnone | hlive
      · obtain ⟨info, hinfo, -⟩ := mem_expiredKeys.mp hexpired
        cases hnone.symm.trans hinfo
      · rw [hgone] at hlive
        cases hlive
    · refine ⟨_, _, hkept, fun hnone => ?_, fun hnone => ?_⟩
      · show Option.filter _ e.tombstones[k]? = none
        rw [hnone]
        rfl
      · show Option.bind e.parkedChunks[k]? _ = none
        rw [hnone]
        rfl

/-- A sweep leaves the factories. -/
theorem maybeRunCleanup_factory (e : Engine RsStrategy Wire) (c : ChannelId) :
    e.maybeRunCleanup.channels[c]?.map Channel.factory = e.channels[c]?.map Channel.factory := by
  have hdispose : ∀ (keys : List SessionKey) (now : Instant) (e : Engine RsStrategy Wire),
      (keys.foldl (fun e k => e.disposeSession k.1 k.2 now) e).channels[c]?.map Channel.factory
        = e.channels[c]?.map Channel.factory := by
    intro keys now e
    induction keys generalizing e with
    | nil => rfl
    | cons k keys ih =>
      rw [List.foldl_cons, ih]
      show (e.channels.modify k.1 (·.removeSession k.2))[c]?.map _ = _
      rw [BTreeMap.get_modify]
      split
      case isTrue hc =>
        rw [← hc]
        cases e.channels[k.1]? <;> rfl
      case isFalse => rfl
  unfold maybeRunCleanup
  dsimp only
  split
  · rfl
  · exact hdispose ..

end Sweeps

section Steps

variable [Crates] {e : Engine RsStrategy Wire} {c : ChannelId} {m : MessageId} {a : Account}
  {buf : Option (List ParkedChunk)}

/-- The message is live and not tombstoned, stands as the account says, and has this buffer of parked
chunks. -/
structure Holds (e : Engine RsStrategy Wire) (c : ChannelId) (m : MessageId)
    (buf : Option (List ParkedChunk)) (a : Account) : Prop where
  session : ∃ s, e.session? c m = some s ∧ a.session.Alike s
  stamp : e.sessionMeta[(c, m)]?.map (·.terminalAt.isSome) = some a.terminal
  delivered : e.delivered = a.delivered
  tombstone : e.tombstones[(c, m)]? = none
  parked : e.parkedChunks[(c, m)]? = buf

/-- A drain leaves the account what it is. -/
theorem Holds.drainSession (h : e.Holds c m buf a) : (e.drainSession c m).2.Holds c m buf a := by
  have hsteps := drainSession_steps e c m
  have hframe := hsteps.frame
  obtain ⟨s, hs, halike⟩ := h.session
  obtain ⟨s', hs', hstate, hstore, -⟩ := hsteps.session hs
  exact
    { session := ⟨s', hs', hstate.trans halike.state_eq, halike.store.trans hstore⟩
      stamp := by rw [hframe.sessionMeta_eq, h.stamp]
      delivered := hframe.delivered_eq.trans h.delivered
      tombstone := by rw [hframe.tombstones_eq, h.tombstone]
      parked := by rw [hframe.parkedChunks_eq, h.parked] }

/-- A chunk is taken by the account as by the session. -/
theorem Holds.takeChunk (h : e.Holds c m buf a) (chunk : Nat × Bytes) :
    (e.takeChunk c m chunk.1 chunk.2).1 = a.session.completes chunk.1 chunk.2
      ∧ (e.takeChunk c m chunk.1 chunk.2).2.Holds c m buf (a.take chunk) := by
  obtain ⟨s, hs, halike⟩ := h.session
  obtain ⟨hcomplete, htaken⟩ := halike.takeChunk chunk.1 chunk.2
  refine ⟨(takeChunk_completes hs chunk.1 chunk.2).trans hcomplete, ?_⟩
  rw [takeChunk_eq]
  refine { h with session := ⟨(s.takeChunk chunk.1 chunk.2).2, ?_, htaken⟩ }
  rw [session?_modifySession_self, hs]
  rfl

/-- The parked chunks are taken by the account as by the session, one after the other. -/
theorem Holds.replayEach (chunks : List ParkedChunk) (anyComplete : Bool) (h : e.Holds c m buf a) :
    (replayEach c m chunks anyComplete e).1
        = (Account.takeAll (chunks.map fun p => (p.chunkId, p.payload)) anyComplete a).1
      ∧ (replayEach c m chunks anyComplete e).2.Holds c m buf
        (Account.takeAll (chunks.map fun p => (p.chunkId, p.payload)) anyComplete a).2 := by
  induction chunks generalizing anyComplete e a with
  | nil => exact ⟨rfl, h⟩
  | cons chunk chunks ih =>
    obtain ⟨hflag, htaken⟩ := h.takeChunk (chunk.chunkId, chunk.payload)
    have hrest := ih (anyComplete || a.session.completes chunk.chunkId chunk.payload) htaken
    rw [← hflag] at hrest
    rw [List.map_cons, Account.takeAll, ← hflag]
    exact hrest

/-- A decoding settles the account. -/
theorem Holds.maybeDecodeAndDeliver (h : e.Holds c m buf a) :
    (e.maybeDecodeAndDeliver c m).Holds c m buf (a.settle c m) := by
  obtain ⟨s, hs, halike⟩ := h.session
  obtain ⟨hresult, hsettled⟩ := halike.decodeAndFinish
  have hledger := ledger_afterDecode (k := (c, m)) e c m s
  rw [if_pos rfl, if_pos rfl] at hledger
  have hafter : (e.afterDecode c m s).Holds c m buf (a.settle c m) := by
    refine
      { session := ⟨s.decodeAndFinish.2, ?_, hsettled⟩
        -- what is left to show is that the session is the account's, that it is stamped, and what was
        -- delivered
        stamp := ?_
        delivered := ?_
        tombstone := (congrArg Ledger.tombstone hledger).trans h.tombstone
        parked := (congrArg Ledger.parked hledger).trans h.parked }
    · refine (congrArg Ledger.session hledger).trans ?_
      show (e.session? c m).map _ = _
      rw [hs]
      rfl
    · obtain ⟨info, hinfo, -⟩ := Option.map_eq_some_iff.mp h.stamp
      have hmarked : (e.afterDecode c m s).sessionMeta[(c, m)]?
          = e.sessionMeta[(c, m)]?.map (·.markTerminal e.now.1) := congrArg Ledger.info hledger
      rw [hmarked, hinfo]
      rfl
    · have hsame : (e.modifySession c m fun _ => s.decodeAndFinish.2).delivered = e.delivered := rfl
      obtain ⟨clock, sessionMeta, hmark⟩ := markSessionTerminal_frame
        (e.modifySession c m fun _ => s.decodeAndFinish.2) c m
      unfold afterDecode Account.settle
      rw [hmark, ← hresult]
      cases s.decodeAndFinish.1 with
      | ok payload =>
        show (e.delivered.trySend _).2 = (a.delivered.trySend _).2
        rw [h.delivered]
      | error err => exact h.delivered
  rw [maybeDecodeAndDeliver_eq, hs]
  dsimp only
  cases s.decodeAndFinish.1 with
  | ok payload => exact { hafter with }
  | error err => exact hafter

omit [Crates] in
/-- A sweep that leaves the session alone leaves the account alone. -/
theorem Holds.maybeRunCleanup (h : e.Holds c m none a) (hlive : (e.maybeRunCleanup.session? c m).isSome) :
    e.maybeRunCleanup.Holds c m none a := by
  obtain ⟨tombstone, parked, hledger, htomb, hparked⟩ :=
    ledger_maybeRunCleanup e (c, m) (.inr hlive)
  obtain ⟨s, hs, halike⟩ := h.session
  have hstamp : e.maybeRunCleanup.sessionMeta[(c, m)]? = e.sessionMeta[(c, m)]? :=
    congrArg Ledger.info hledger
  exact
    { session := ⟨s, (congrArg Ledger.session hledger).trans hs, halike⟩
      stamp := by rw [hstamp, h.stamp]
      delivered := e.maybeRunCleanup_frame.2.trans h.delivered
      tombstone := (congrArg Ledger.tombstone hledger).trans (htomb h.tombstone)
      parked := (congrArg Ledger.parked hledger).trans (hparked h.parked) }

/-- A chunk of a live message is taken account of. -/
theorem Holds.handleChunk (h : e.Holds c m none a) (chunk : Nat × Bytes) :
    (e.handleChunk c m chunk.1 chunk.2).Holds c m none (a.arrive c m chunk) := by
  obtain ⟨s, hs, -⟩ := h.session
  obtain ⟨hflag, htaken⟩ := h.takeChunk chunk
  have hfree : ¬ e.isTombstoned c m := by
    simpa [isTombstoned] using BTreeMap.not_mem_of_get h.tombstone
  have hlive : ¬ (e.session? c m).isNone := by
    rw [hs]
    exact Bool.false_ne_true
  unfold Engine.handleChunk Account.arrive
  rw [if_neg hfree, if_neg hlive]
  dsimp only
  rw [hflag]
  split
  · exact htaken.drainSession.maybeDecodeAndDeliver
  · exact htaken.drainSession

/-- The message is neither live nor tombstoned, its channel is hosted with this factory, and these
chunks of it are parked. -/
structure Awaits (e : Engine RsStrategy Wire) (c : ChannelId) (m : MessageId)
    (factory : StrategyFactory RsStrategy) (delivered : Sink) (chunks : List (Nat × Bytes)) : Prop where
  hosted : e.channels[c]?.map Channel.factory = some factory
  session : e.session? c m = none
  stamp : e.sessionMeta[(c, m)]? = none
  delivered : e.delivered = delivered
  tombstone : e.tombstones[(c, m)]? = none
  parked : (e.parkedChunks[(c, m)]?.getD []).map (fun p => (p.chunkId, p.payload)) = chunks

variable {factory : StrategyFactory RsStrategy} {delivered : Sink} {chunks : List (Nat × Bytes)}

/-- A chunk of a message without a session is parked. -/
theorem Awaits.handleChunk (h : e.Awaits c m factory delivered chunks)
    (hroom : chunks.length < maxParkedChunksPerMessage) (chunk : Nat × Bytes) :
    (e.handleChunk c m chunk.1 chunk.2).Awaits c m factory delivered (chunks ++ [chunk]) := by
  have hfree : ¬ e.isTombstoned c m := by
    simpa [isTombstoned] using BTreeMap.not_mem_of_get h.tombstone
  have hnone : (e.session? c m).isNone := by
    rw [h.session]
    rfl
  unfold Engine.handleChunk
  rw [if_neg hfree, if_pos hnone]
  refine { h with parked := ?_ }
  have hparked : (e.parkChunk c m chunk.1 chunk.2).parkedChunks[(c, m)]? = _ :=
    congrArg Ledger.parked (ledger_parkChunk (k := (c, m)) e c m chunk.1 chunk.2)
  have hlength := congrArg List.length h.parked
  rw [List.length_map] at hlength
  rw [hparked, if_pos rfl, Option.getD_some]
  show List.map _ (parkIn (e.parkedChunks[(c, m)]?.getD []) _) = _
  unfold parkIn
  rw [if_neg (by omega), List.map_append, h.parked]
  rfl

omit [Crates] in
/-- A sweep that drops none of the parked chunks leaves the message waiting. -/
theorem Awaits.maybeRunCleanup (h : e.Awaits c m factory delivered chunks)
    (hkept : e.maybeRunCleanup.parkedChunks[(c, m)]? = e.parkedChunks[(c, m)]?) :
    e.maybeRunCleanup.Awaits c m factory delivered chunks := by
  obtain ⟨tombstone, parked, hledger, htomb, -⟩ := ledger_maybeRunCleanup e (c, m) (.inl h.stamp)
  exact
    { hosted := (maybeRunCleanup_factory e c).trans h.hosted
      session := (congrArg Ledger.session hledger).trans h.session
      stamp := (congrArg Ledger.info hledger).trans h.stamp
      delivered := e.maybeRunCleanup_frame.2.trans h.delivered
      tombstone := (congrArg Ledger.tombstone hledger).trans (htomb h.tombstone)
      parked := by rw [hkept, h.parked] }

/-- What a freshly opened relay session holds. -/
def opened (strategy : RsStrategy) (delivered : Sink) : Account :=
  ⟨Session.newRelay strategy, false, delivered⟩

/-- The state after a `SessionOpen` that was accepted, before its drain. -/
theorem Awaits.withRelay (h : e.Awaits c m factory delivered chunks) {preamble : Bytes}
    {strategy : RsStrategy} (hbuild : (factory.call preamble).1 = .ok strategy) :
    ∃ ch ch', e.channels[c]? = some ch ∧ ch.openSession m preamble = (.ok (), ch')
      ∧ (e.withRelay c m preamble ch').Holds c m e.parkedChunks[(c, m)]? (opened strategy delivered) := by
  obtain ⟨ch, hch, rfl⟩ := Option.map_eq_some_iff.mp h.hosted
  -- the message has no session yet, so that the factory is called
  have hm : m ∉ ch.sessions := by
    refine BTreeMap.not_mem_of_get ?_
    simpa [session?, hch] using h.session
  rcases hcall : ch.factory.call preamble with ⟨r, factory⟩
  obtain rfl : r = .ok strategy := by rw [← hbuild, hcall]
  have hopen : ch.openSession m preamble = (.ok (), { ch with
      factory
      sessions := ch.sessions.insert m (ch.attachAll (Session.newRelay strategy)) }) := by
    unfold Channel.openSession
    rw [if_neg hm, hcall]
  refine ⟨ch, _, hch, hopen, ?_⟩
  generalize hch' : Channel.mk ch.channelId ch.subscribers
    (ch.sessions.insert m (ch.attachAll (Session.newRelay strategy))) factory = ch'
  have hsession : (e.withRelay c m preamble ch').session? c m = _ :=
    session?_withRelay _ hch (congrArg Channel.sessions hch'.symm)
  rw [if_pos ⟨rfl, rfl⟩] at hsession
  -- the record is new, and its session is not terminal
  have hstamp : ∃ now, (e.withRelay c m preamble ch').sessionMeta[(c, m)]? = some ⟨now, none⟩ := by
    refine ⟨e.now.1, (sessionMeta_recordSessionCreated _ c m).trans ?_⟩
    rw [if_pos rfl]
    exact congrArg (fun info => some (Option.getD info ⟨e.now.1, none⟩)) h.stamp
  obtain ⟨now, hstamp⟩ := hstamp
  obtain ⟨clock, sessionMeta, hrelay⟩ := e.withRelay_eq c m preamble ch'
  exact
    { session := ⟨_, hsession, ch.attachAll_alike (Session.newRelay strategy)⟩
      stamp := by rw [hstamp]; rfl
      delivered := by rw [hrelay]; exact h.delivered
      tombstone := by rw [hrelay]; exact h.tombstone
      parked := by rw [hrelay] }

/-- A replay takes what is parked, settles if that was enough, and leaves nothing parked. -/
theorem Holds.replayParkedChunks (h : e.Holds c m buf a) :
    (e.replayParkedChunks c m).Holds c m none
      (a.replay c m ((buf.getD []).map fun p => (p.chunkId, p.payload))) := by
  unfold Engine.replayParkedChunks
  rw [h.parked]
  cases buf with
  | none => exact h
  | some parked =>
    have herased : { e with parkedChunks := e.parkedChunks.erase (c, m) }.Holds c m none a :=
      { h with parked := by rw [BTreeMap.get_erase, if_pos rfl] }
    obtain ⟨hflag, htaken⟩ := herased.replayEach parked false
    dsimp only
    rw [hflag, Account.replay, Account.close, Option.getD_some]
    split
    · exact htaken.drainSession.maybeDecodeAndDeliver
    · exact htaken.drainSession

/-- Opening the session replays what was parked. -/
theorem Awaits.handleSessionOpen (h : e.Awaits c m factory delivered chunks) {preamble : Bytes}
    {strategy : RsStrategy} (hbuild : (factory.call preamble).1 = .ok strategy) :
    (e.handleSessionOpen c m preamble).Holds c m none ((opened strategy delivered).replay c m chunks) := by
  have hfree : ¬ e.isTombstoned c m := by
    simpa [isTombstoned] using BTreeMap.not_mem_of_get h.tombstone
  obtain ⟨ch, ch', hch, hopen, hholds⟩ := h.withRelay hbuild
  have hreplayed := hholds.drainSession.replayParkedChunks
  rw [h.parked] at hreplayed
  unfold Engine.handleSessionOpen
  rw [if_neg hfree]
  simp only [hch, hopen]
  exact hreplayed

end Steps

/-! ## The two orders -/

section Orders

variable [Crates] {e : Engine RsStrategy Wire} {c : ChannelId} {m : MessageId} {a : Account}
  {factory : StrategyFactory RsStrategy} {delivered : Sink} {chunks : List (Nat × Bytes)}

/-- The sweep of the step drops a parked chunk of the message. -/
def DropsParked (e : Engine RsStrategy Wire) (i : Input RsStrategy) (c : ChannelId) (m : MessageId) :
    Prop :=
  (e.step i).2.parkedChunks[(c, m)]? ≠ (e.beforeSweep i).parkedChunks[(c, m)]?

instance (e : Engine RsStrategy Wire) (i : Input RsStrategy) (c : ChannelId) (m : MessageId) :
    Decidable (e.DropsParked i c m) :=
  inferInstanceAs (Decidable (_ ≠ _))

/-- Chunks of one message, each from some peer. -/
def arrivals (c : ChannelId) (m : MessageId) (chunks : List (PeerId × Nat × Bytes)) :
    List (Input RsStrategy) :=
  chunks.map fun chunk => .event (.chunk chunk.1 c m chunk.2.1 chunk.2.2)

/-- The two engines stand alike with the message: its session is in the same state and holds the same
shards, its metadata carries a terminal time in both or in neither, the sinks are the same, and neither
parks a chunk of it. -/
structure Agree (e e' : Engine RsStrategy Wire) (c : ChannelId) (m : MessageId) : Prop where
  session : ∃ s s', e.session? c m = some s ∧ e'.session? c m = some s' ∧ s.state = s'.state
    ∧ s.strategy.preamble = s'.strategy.preamble ∧ s.strategy.chunks = s'.strategy.chunks
  stamp : ∃ info info', e.sessionMeta[(c, m)]? = some info ∧ e'.sessionMeta[(c, m)]? = some info'
    ∧ info.terminalAt.isSome = info'.terminalAt.isSome
  delivered : e.delivered = e'.delivered
  unparked : (c, m) ∉ e.parkedChunks ∧ (c, m) ∉ e'.parkedChunks

omit [Crates] in
/-- Two engines that hold the same account agree on the session. -/
theorem Holds.agree {e' : Engine RsStrategy Wire} (h : e.Holds c m none a) (h' : e'.Holds c m none a) :
    e.Agree e' c m := by
  obtain ⟨s, hs, halike⟩ := h.session
  obtain ⟨s', hs', halike'⟩ := h'.session
  obtain ⟨info, hinfo, hstamp⟩ := Option.map_eq_some_iff.mp h.stamp
  obtain ⟨info', hinfo', hstamp'⟩ := Option.map_eq_some_iff.mp h'.stamp
  exact
    { session := ⟨s, s', hs, hs', halike.state_eq.trans halike'.state_eq.symm,
        halike.store.preamble_eq.trans halike'.store.preamble_eq.symm,
        halike.store.chunks_eq.trans halike'.store.chunks_eq.symm⟩
      stamp := ⟨info, info', hinfo, hinfo', hstamp.trans hstamp'.symm⟩
      delivered := h.delivered.trans h'.delivered.symm
      unparked := ⟨BTreeMap.not_mem_of_get h.parked, BTreeMap.not_mem_of_get h'.parked⟩ }

/-- The sweep of an event that does not dispose of the session leaves the account alone. -/
theorem Holds.step {ev : NetEvent} (h : (e.beforeSweep (.event ev)).Holds c m none a)
    (hkept : ¬ e.Disposes (.event ev) c m) : (e.step (.event ev)).2.Holds c m none a := by
  obtain ⟨s, hs, -⟩ := h.session
  have hlive : (e.step (.event ev)).2.session? c m ≠ none := by
    intro hnone
    exact hkept ⟨by rw [hs]; nofun, hnone⟩
  rw [step_eq] at hlive ⊢
  exact h.maybeRunCleanup (Option.isSome_iff_ne_none.mpr hlive)

/-- Chunks of a live message, no sweep disposing of it, are taken account of. -/
theorem Holds.run (chunks : List (PeerId × Nat × Bytes)) (h : e.Holds c m none a)
    (hkept : e.EachStep (fun e i => ¬ e.Disposes i c m) (arrivals c m chunks)) :
    (e.run (arrivals c m chunks)).Holds c m none
      ((chunks.map (·.2)).foldl (Account.arrive c m) a) := by
  induction chunks generalizing e a with
  | nil => exact h
  | cons chunk chunks ih =>
    have htaken : (e.beforeSweep (.event (.chunk chunk.1 c m chunk.2.1 chunk.2.2))).Holds c m none
        (a.arrive c m chunk.2) := by
      rw [beforeSweep_event]
      exact h.handleChunk chunk.2
    exact ih (htaken.step hkept.1) hkept.2

/-- The sweep of an event that drops no parked chunk leaves the message waiting. -/
theorem Awaits.step {ev : NetEvent} (h : (e.beforeSweep (.event ev)).Awaits c m factory delivered chunks)
    (hkept : ¬ e.DropsParked (.event ev) c m) :
    (e.step (.event ev)).2.Awaits c m factory delivered chunks := by
  unfold DropsParked at hkept
  rw [step_eq] at hkept ⊢
  exact h.maybeRunCleanup (not_not.mp hkept)

/-- Chunks of a message without a session, none of them dropped, are parked. -/
theorem Awaits.run (later : List (PeerId × Nat × Bytes))
    (h : e.Awaits c m factory delivered chunks)
    (hroom : chunks.length + later.length ≤ maxParkedChunksPerMessage)
    (hkept : e.EachStep (fun e i => ¬ e.DropsParked i c m) (arrivals c m later)) :
    (e.run (arrivals c m later)).Awaits c m factory delivered (chunks ++ later.map (·.2)) := by
  induction later generalizing e chunks with
  | nil =>
    rw [List.map_nil, List.append_nil]
    exact h
  | cons chunk later ih =>
    rw [List.length_cons] at hroom
    have hparked : (e.beforeSweep (.event (.chunk chunk.1 c m chunk.2.1 chunk.2.2))).Awaits c m factory
        delivered (chunks ++ [chunk.2]) := by
      rw [beforeSweep_event]
      exact h.handleChunk (by omega) chunk.2
    have hrest := ih (hparked.step hkept.1) (by simpa [Nat.add_assoc, Nat.add_comm 1] using hroom) hkept.2
    rwa [List.append_assoc] at hrest

/-- **A parked chunk is a late one**: chunks of a message that come before its session and those that
come after it leave the engine alike with the message, as long as the buffer holds them and no sweep
drops one of them or disposes of the session. -/
theorem run_parking (localPeer : PeerId) (net : Wire) (delivered : Sink) (config : EngineConfig)
    (clock : Clock) (inputs : List (Input RsStrategy)) {e : Engine RsStrategy Wire}
    (he : e = (withConfig localPeer net delivered config clock).run inputs) {c : ChannelId}
    {m : MessageId} {ch : Channel RsStrategy} (hhosted : e.channels[c]? = some ch)
    (hlive : e.session? c m = none) (htomb : (c, m) ∉ e.tombstones) (hparked : (c, m) ∉ e.parkedChunks)
    {preamble : Bytes} {strategy : RsStrategy} (hbuild : (ch.factory.call preamble).1 = .ok strategy)
    (opener : PeerId) (update : Bytes) (chunks : List (PeerId × Nat × Bytes))
    (hroom : chunks.length ≤ maxParkedChunksPerMessage)
    (hearly : e.EachStep (fun e i => ¬ e.DropsParked i c m ∧ ¬ e.Disposes i c m)
      (arrivals c m chunks ++ [.event (.sessionOpen opener c m preamble update)]))
    (hlate : e.EachStep (fun e i => ¬ e.Disposes i c m)
      (.event (.sessionOpen opener c m preamble update) :: arrivals c m chunks)) :
    Agree (e.run (arrivals c m chunks ++ [.event (.sessionOpen opener c m preamble update)]))
      (e.run (.event (.sessionOpen opener c m preamble update) :: arrivals c m chunks)) c m := by
  have hbalanced : (e.ledger (c, m)).Balanced := he ▸ run_balanced localPeer net delivered config clock
    inputs (c, m)
  obtain ⟨delivered', hdelivered⟩ : ∃ d, e.delivered = d := ⟨_, rfl⟩
  have hawaits : e.Awaits c m ch.factory delivered' [] :=
    { hosted := by rw [hhosted]; rfl
      session := hlive
      stamp := by
        have hinfo : e.sessionMeta[(c, m)]?.isSome = (e.session? c m).isSome := hbalanced.info_isSome
        rwa [hlive, Option.isSome_none, Option.isSome_eq_false_iff, Option.isNone_iff_eq_none] at hinfo
      delivered := hdelivered
      tombstone := ExtTreeMap.getElem?_eq_none htomb
      parked := by rw [ExtTreeMap.getElem?_eq_none hparked]; rfl }
  have hopens : ∀ {e : Engine RsStrategy Wire} {parked : List (Nat × Bytes)},
      e.Awaits c m ch.factory delivered' parked →
      (e.beforeSweep (.event (.sessionOpen opener c m preamble update))).Holds c m none
        ((opened strategy delivered').replay c m parked) := by
    intro e parked h
    rw [beforeSweep_event]
    exact h.handleSessionOpen hbuild
  -- the late chunks
  have hlater := Holds.run chunks ((hopens hawaits).step hlate.1) hlate.2
  -- the early ones
  obtain ⟨hchunks, hopen, -⟩ := EachStep.append.mp hearly
  have hwaiting := hawaits.run chunks (by simpa using hroom) (hchunks.mono fun _ _ h => h.1)
  have hearlier := (hopens hwaiting).step hopen.2
  rw [← run_concat] at hearlier
  refine hearlier.agree ?_
  rw [List.nil_append, ← Account.foldl_arrive_eq_replay _ (nofun : SessionState.consuming ≠ .decoding)]
  exact hlater

end Orders

section OneShard

attribute [local instance] oneShard

/-- A node that hosts the channel "c", sweeps every second and forgets a message one second after it is
done with it, on a clock that advances by a second at every reading. -/
def forgetful : Engine RsStrategy Wire :=
  (withConfig 0 ⟨fun _ _ => .ok (), []⟩ ⟨8, [], false⟩
    { reconstructedLinger := second, cleanupInterval := second } ⟨fun n => n * second, 0⟩).run
    [.subscribe "c" (rsRelayFactory {} fun _ => 7)]

/-- A tampered shard, the two shards of the message, and one out of range. -/
def mixed : List (PeerId × Nat × Bytes) := [(1, 0, [2]), (1, 1, [1]), (2, 0, [1]), (2, 7, [1])]

/-- Chunks of which some are forged and some come twice. -/
theorem run_parking_mixed :
    Agree
      (((nodeTicking second).run [.subscribe "c" (rsRelayFactory {} fun _ => 7)]).run
        (arrivals "c" "m" mixed
          ++ [.event (.sessionOpen 1 "c" "m" (OneShard.preambleBytes OneShard.preamble) [])]))
      (((nodeTicking second).run [.subscribe "c" (rsRelayFactory {} fun _ => 7)]).run
        (.event (.sessionOpen 1 "c" "m" (OneShard.preambleBytes OneShard.preamble) [])
          :: arrivals "c" "m" mixed)) "c" "m" := by
  have hbuilds : (((nodeTicking second).run
      [.subscribe "c" (rsRelayFactory {} fun _ => 7)]).channels["c"]?.any fun ch =>
        (ch.factory.call (OneShard.preambleBytes OneShard.preamble)).1.isOk) = true := by
    decide +kernel
  obtain ⟨ch, hch, hok⟩ := (Option.any_eq_true _ _).mp hbuilds
  obtain ⟨strategy, hstrategy⟩ : ∃ strategy,
      (ch.factory.call (OneShard.preambleBytes OneShard.preamble)).1 = .ok strategy := by
    rcases hcall : (ch.factory.call (OneShard.preambleBytes OneShard.preamble)).1 with err | strategy
    · rw [hcall] at hok
      cases hok
    · exact ⟨strategy, rfl⟩
  have hlive : (((nodeTicking second).run
      [.subscribe "c" (rsRelayFactory {} fun _ => 7)]).session? "c" "m").isNone = true := by
    decide +kernel
  exact run_parking 0 ⟨fun _ _ => .ok (), []⟩ ⟨8, [], false⟩ {} ⟨fun n => n * second, 0⟩
    [.subscribe "c" (rsRelayFactory {} fun _ => 7)] rfl hch (Option.isNone_iff_eq_none.mp hlive)
    (by decide +kernel) (by decide +kernel) hstrategy 1 [] mixed (by decide +kernel) (by decide +kernel)
    (by decide +kernel)

/-- **A sweep may dispose of the session in one order only**: the shard of the message comes three
times; if it comes after the `SessionOpen`, the message is done with the first one and swept before
the last one; no sweep drops a parked chunk. -/
theorem run_not_parking :
    (forgetful.channels["c"]?.any fun ch =>
        (ch.factory.call (OneShard.preambleBytes OneShard.preamble)).1.isOk)
    ∧ forgetful.session? "c" "m" = none ∧ ("c", "m") ∉ forgetful.tombstones
    ∧ ("c", "m") ∉ forgetful.parkedChunks
    ∧ forgetful.EachStep (fun e i => ¬ e.DropsParked i "c" "m")
      (arrivals "c" "m" (List.replicate 3 (1, 0, [1]))
        ++ [.event (.sessionOpen 1 "c" "m" (OneShard.preambleBytes OneShard.preamble) [])])
    ∧ ¬ Agree
      (forgetful.run (arrivals "c" "m" (List.replicate 3 (1, 0, [1]))
        ++ [.event (.sessionOpen 1 "c" "m" (OneShard.preambleBytes OneShard.preamble) [])]))
      (forgetful.run (.event (.sessionOpen 1 "c" "m" (OneShard.preambleBytes OneShard.preamble) [])
        :: arrivals "c" "m" (List.replicate 3 (1, 0, [1])))) "c" "m" := by
  have hlive : (forgetful.session? "c" "m").isNone = true := by decide +kernel
  have hgone : ((forgetful.run (.event (.sessionOpen 1 "c" "m"
      (OneShard.preambleBytes OneShard.preamble) [])
      :: arrivals "c" "m" (List.replicate 3 (1, 0, [1])))).session? "c" "m").isNone = true := by
    decide +kernel
  refine ⟨by decide +kernel, Option.isNone_iff_eq_none.mp hlive, by decide +kernel, by decide +kernel,
    by decide +kernel, fun hagree => ?_⟩
  obtain ⟨s, s', -, hs', -⟩ := hagree.session
  rw [hs'] at hgone
  cases hgone

end OneShard

end Engine

end Ethp2p
