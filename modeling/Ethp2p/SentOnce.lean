/-
# Ethp2p.SentOnce — no shard is sent to a peer twice.

Nothing in the engine compares a chunk with those sent before.  What keeps it from sending one twice is
spread over three tables: the planner's in-flight set, the handle map and, once the send is known to
have succeeded, the peer's optimistic havelist.  `Watched` follows one accepted dispatch: as long as its
session lives, its shard is in flight under its token or in the peer's havelist, so no poll offers it
again, and the batch that is still to be submitted does not hold it either.

Two things end the watch: the dispatch is reported as failed, or its peer is detached.  A third would
be an outcome booked on the wrong dispatch, which is why `run_sentOnce` needs results that come in
during the life they belong to (`Timely`); without it a late failure takes another dispatch back
(`run_not_sentOnce`).
-/
import Ethp2p.Handshakes
import Ethp2p.Resolutions
import Ethp2p.Strategy.Rs.Flights

namespace Ethp2p

open Std

/-- The peer says that it leaves the session, the channel or the network. -/
def Input.parts (p : PeerId) (k : SessionKey) : Input RsStrategy → Prop
  | .event (.unsubscribe q c) => q = p ∧ c = k.1
  | .event (.peerDisconnected q) => q = p
  | .event (.peerReconstructed q c m) | .event (.sessionClosed q c m) => q = p ∧ (c, m) = k
  | _ => False

/-- The input reports a failed send. -/
def Input.fails : Input RsStrategy → Bool
  | .event (.chunkSendResult _ _ _ _ ok) => !ok
  | _ => false

/-- The input is a send result of the session of `k`. -/
def Input.isResultOf (k : SessionKey) : Input RsStrategy → Prop
  | .event (.chunkSendResult _ c m _ _) => (c, m) = k
  | _ => False

/-! ## Sessions -/

namespace Session

/-- The shard is in flight under the token, or the peer is taken to have it. -/
def Spends (s : Session RsStrategy) (token : DispatchHandle) (v : PeerId × Nat) : Prop :=
  s.strategy.inFlight[token]? = some v ∨ s.strategy.planner.Had v.1 v.2

variable {s : Session RsStrategy} {token : DispatchHandle} {v : PeerId × Nat}

/-- What a flight or a sent shard has spent is blocked for its peer. -/
theorem Spends.blocks (h : s.Spends token v) (hflights : s.strategy.Flights) :
    s.strategy.planner.Blocks v.1 v.2 :=
  h.imp (fun hfly => (hflights.planned token v.1 v.2 hfly).1) id

/-- What is spent was spent on an attached peer. -/
theorem Spends.attached (h : s.Spends token v) (hcontained : s.strategy.Contained) :
    v.1 ∈ s.strategy.attachedPeers := by
  rcases h with hfly | ⟨b, hb, -⟩
  · exact hcontained.flying token v hfly
  · refine hcontained.planned v.1 ((BTreeMap.mem_iff_get _ _).mpr ?_)
    unfold EmitPlanner.peerState at hb
    rw [ExtTreeMap.getD_eq_getD_getElem?] at hb
    cases hp : s.strategy.planner.peers[v.1]? with
    | none =>
      rw [hp] at hb
      cases hb
    | some state => exact ⟨state, rfl⟩

variable [Crates]

/-- A poll dispatches nothing that is blocked, and unblocks nothing. -/
theorem poll_flights (h : s.strategy.Flights) : s.poll.2.strategy.Flights
    ∧ EmitPlanner.Grows s.strategy.planner s.poll.2.strategy.planner
    ∧ ∀ d ∈ s.poll.1.dispatches, ¬ s.strategy.planner.Blocks d.peer d.chunkId := by
  have hplanner := s.strategy.pollRouting_planner false
  have hflights : (s.strategy.pollRouting false).2.Flights := by
    refine h.congr ?_ hplanner
    rcases s.strategy.pollRouting_cases false with hr | hr <;> rw [hr]
  have hpoll := hflights.pollPeers (s.strategy.pollRouting false).2.attachedPeers.toList
  rw [hplanner] at hpoll
  exact hpoll

/-- Every operation keeps the flights in the books. -/
theorem flights_kept : Session.Kept fun s => s.strategy.Flights where
  built h := h.fresh.flights
  attach p hs := hs.congr rfl rfl
  detach p completed hs := hs.detachPeer p completed
  poll hs := (poll_flights hs).1
  sent p handle ok hown hs := hs.chunkSent p handle ok hown
  take {s} idx data hs := by
    obtain ⟨chunks, hchunks⟩ := s.takeChunk_chunks idx data
    rw [hchunks]
    exact hs.congr rfl rfl
  finish {s} hs := by
    rwa [s.decodeAndFinish_strategy]

/-- What is spent stays spent when another peer leaves. -/
theorem Spends.detachPeer (h : s.Spends token v) {p : PeerId} (hp : p ≠ v.1) (completed : Bool) :
    (s.detachPeer p completed).Spends token v := by
  rcases h with hfly | hhad
  · refine .inl ?_
    show (s.strategy.inFlight.filter fun _ v => v.1 ≠ p)[token]? = some v
    rw [BTreeMap.get_filter, hfly]
    simp [Option.filter_some, Ne.symm hp]
  · refine .inr (hhad.congr ?_)
    show ((s.strategy.planner.removePeer p).peerState v.1).optimisticHavelist = _
    rw [(s.strategy.planner.removePeer_spec p).2.2, if_neg hp]

/-- What is spent stays spent over a poll. -/
theorem Spends.poll (h : s.Spends token v) (hflights : s.strategy.Flights) (hunwrapped : s.Unwrapped)
    (htoken : token < s.strategy.nextHandle) : s.poll.2.Spends token v := by
  rcases h with hfly | hhad
  · refine .inl ?_
    have hother : ∀ (ds : List (ChunkDispatch Nat)) (f : BTreeMap DispatchHandle (PeerId × Nat)),
        (∀ d ∈ ds, d.handle ≠ token) → (RsStrategy.addFlights f ds)[token]? = f[token]? := by
      intro ds
      induction ds with
      | nil => exact fun _ _ => rfl
      | cons d ds ih =>
        intro f hne
        refine (ih _ fun d' hd' => hne d' (List.mem_cons_of_mem d hd')).trans ?_
        rw [BTreeMap.get_insert, if_neg (hne d List.mem_cons_self)]
    rw [poll_inFlight, hother, hfly]
    rintro d hd rfl
    exact absurd (s.le_handle_of_mem_poll hunwrapped hd) (UInt64.not_le.mpr htoken)
  · exact .inr ((poll_flights hflights).2.1.had _ _ hhad)

/-- What is spent stays spent when another dispatch has an outcome. -/
theorem Spends.chunkSent (h : s.Spends token v) {handle : DispatchHandle} (hne : handle ≠ token)
    (p : PeerId) (ok : Bool) : (s.chunkSent p handle ok).Spends token v := by
  rcases h with hfly | hhad
  · refine .inl ?_
    refine (congrArg (·[token]?) (s.strategy.chunkSent_inFlight p handle ok)).trans ?_
    rw [BTreeMap.get_erase, if_neg hne, hfly]
  · exact .inr (RsStrategy.had_chunkSent hhad p handle ok)

/-- An outcome of the dispatch itself leaves it spent, unless it is a failure. -/
theorem Spends.chunkSent_self (h : s.Spends token v) (hflights : s.strategy.Flights) {p : PeerId}
    {ok : Bool} (hown : ∀ w ∈ s.strategy.inFlight[token]?, w = v ∧ p = v.1 ∧ ok) :
    (s.chunkSent p token ok).Spends token v := by
  cases hfly : s.strategy.inFlight[token]? with
  | none =>
    have hsame : (s.chunkSent p token ok).strategy = s.strategy :=
      RsStrategy.chunkSent_of_not_flying hfly p ok
    unfold Spends
    rwa [hsame]
  | some w =>
    obtain ⟨rfl, rfl, rfl⟩ := hown w hfly
    exact .inr (hflights.had_of_sent hfly)

end Session

/-! ## One ledger -/

section Ledgers

variable [Crates] {A : Premises} {i j : Input RsStrategy} {k : SessionKey} {L L' : Ledger} {n x : Nat}
  {token : DispatchHandle} {v : PeerId × Nat}

omit [Crates] in
/-- In the life that began after `n` messages every token is used once, by the dispatches accepted and
by the batch still to be submitted. -/
structure Ledger.Sound (n : Nat) (i : Input RsStrategy) (k : SessionKey) (L : Ledger) : Prop
    extends L.InLife n i k where
  flights : ∀ s, L.session = some s → s.strategy.Flights
  contained : ∀ s, L.session = some s → s.strategy.Contained
  handles : (L.unsent.map (·.handle)).Nodup
  peers : (L.unsent.map (·.peer)).Nodup
  fresh : ∀ d ∈ L.unsent, ∀ sent ∈ L.log.drop n, ∀ v, sent.dispatch? ≠ some (k, d.handle, v)
  distinct : (L.log.drop n).Pairwise fun sent later => ∀ token v w,
    sent.dispatch? = some (k, token, v) → later.dispatch? ≠ some (k, token, w)

namespace Ledger.Sound

omit [Crates] in
/-- A life begins. -/
theorem begin (hbalanced : L.Balanced) (hnone : L.session = none) (hunsent : L.unsent = []) :
    L.Sound L.log.length i k where
  toInLife := .begin hbalanced hnone
  flights := by simp [hnone]
  contained := by simp [hnone]
  handles := by simp [hunsent]
  peers := by simp [hunsent]
  fresh := by simp [hunsent]
  distinct := by simp

omit [Crates] in
/-- After the step, its input has no more to say. -/
theorem settled (h : L.Sound n i k) : L.Sound n .recv k :=
  { h with toInLife := h.toInLife.settled }

omit [Crates] in
/-- What is sound of a live session is sound as the next input comes. -/
theorem next (h : L.Sound n .recv k) (hlive : L.session.isSome) : L.Sound n j k :=
  { h with toInLife := h.toInLife.next hlive }

omit [Crates] in
/-- A token tells which message it was. -/
theorem eq_of_token (h : L.Sound n i k) {y : Nat} {w : PeerId × Nat} (hx : n ≤ x) (hy : n ≤ y)
    (hdx : L.log[x]?.bind Sent.dispatch? = some (k, token, v))
    (hdy : L.log[y]?.bind Sent.dispatch? = some (k, token, w)) : x = y := by
  have hdrop : ∀ {z}, n ≤ z → (L.log.drop n)[z - n]? = L.log[z]? := fun hz => by
    rw [List.getElem?_drop, Nat.add_sub_cancel' hz]
  obtain ⟨a, ha, hda⟩ := Option.bind_eq_some_iff.mp hdx
  obtain ⟨b, hb, hdb⟩ := Option.bind_eq_some_iff.mp hdy
  rw [← hdrop hx] at ha
  rw [← hdrop hy] at hb
  obtain ⟨hlx, hax⟩ := List.getElem?_eq_some_iff.mp ha
  obtain ⟨hly, hby⟩ := List.getElem?_eq_some_iff.mp hb
  have hpairs := List.pairwise_iff_getElem.mp h.distinct
  rcases Nat.lt_trichotomy (x - n) (y - n) with hlt | heq | hgt
  · exact absurd (hby ▸ hdb) (hpairs _ _ hlx hly hlt token v w (hax ▸ hda))
  · omega
  · exact absurd (hax ▸ hda) (hpairs _ _ hly hlx hgt token w v (hby ▸ hdb))

end Ledger.Sound

omit [Crates] in
theorem Input.not_chunkSendResult (h : ¬ i.isResultOf k) (peer : PeerId) (token : DispatchHandle)
    (ok : Bool) : i ≠ .event (.chunkSendResult peer k.1 k.2 token ok) := by
  rintro rfl
  exact h rfl

/-- **Every change keeps the tokens of a life apart**, unless it feeds an outcome back. -/
theorem LedgerStep.sound (h : LedgerStep A i k L L') (hpolls : ∀ s, A.polls s → s.Unwrapped)
    (hvalid : A.valid) (hdies : A.sweeps → ∀ b, ¬ i.creates k b) (hresult : ¬ i.isResultOf k)
    (hL : L.Sound n i k) : L'.Sound n i k := by
  have hlife := h.inLife hpolls hdies hL.toInLife
  have hflights := h.kept Session.flights_kept hvalid (Input.not_chunkSendResult hresult) hL.flights
  have hcontained := h.contained hvalid (Input.not_chunkSendResult hresult) hL.contained
  rcases h.log_cases with ⟨s, d, rest, hs, hs', hd, hbatch, hrest, hlog⟩ | ⟨new, hlog, hnew⟩
  · -- a dispatch of the batch is accepted
    have hhandles := hL.handles
    have hpeers := hL.peers
    rw [hbatch, List.map_cons, List.nodup_cons] at hhandles hpeers
    have hdrop : L'.log.drop n = L.log.drop n
        ++ [Sent.mk (.chunk d.peer k.1 k.2 d.chunkId d.payload d.handle) (.ok ())] := by
      rw [hlog, List.drop_append_of_le_length hL.start]
    refine
      { hlife with
        flights := hflights
        contained := hcontained
        handles := hrest ▸ hhandles.2
        peers := hrest ▸ hpeers.2
        fresh := fun d' hd' sent hsent v hv => ?_
        distinct := ?_ }
    · rw [hrest] at hd'
      rw [hdrop] at hsent
      rcases List.mem_append.mp hsent with hsent | hsent
      · exact hL.fresh d' (hbatch ▸ List.mem_cons_of_mem d hd') sent hsent v hv
      · cases List.mem_singleton.mp hsent
        simp only [Sent.dispatch?, Option.some.injEq, Prod.mk.injEq] at hv
        exact hhandles.1 (hv.2.1 ▸ List.mem_map_of_mem hd')
    · rw [hdrop]
      refine List.pairwise_append.mpr ⟨hL.distinct, List.pairwise_singleton _ _, ?_⟩
      intro sent hsent later hlater token v w hv hw
      cases List.mem_singleton.mp hlater
      simp only [Sent.dispatch?, Option.some.injEq, Prod.mk.injEq] at hw
      exact hL.fresh d (hbatch ▸ List.mem_cons_self) sent hsent v (hw.2.1 ▸ hv)
  · -- nothing of the session is dispatched
    have hdrop : L'.log.drop n = L.log.drop n ++ new := by
      rw [hlog, List.drop_append_of_le_length hL.start]
    have hdistinct : (L'.log.drop n).Pairwise fun sent later => ∀ token v w,
        sent.dispatch? = some (k, token, v) → later.dispatch? ≠ some (k, token, w) := by
      rw [hdrop]
      refine List.pairwise_append.mpr ⟨hL.distinct, ?_, fun _ _ later hlater token _ w _ =>
        hnew later hlater token w⟩
      exact List.pairwise_of_forall_mem_list fun _ _ later hlater token _ w _ => hnew later hlater token w
    have hfresh : ∀ d : ChunkDispatch Nat,
        (∀ sent ∈ L.log.drop n, ∀ v, sent.dispatch? ≠ some (k, d.handle, v)) →
        ∀ sent ∈ L'.log.drop n, ∀ v, sent.dispatch? ≠ some (k, d.handle, v) := by
      intro d hold sent hsent v
      rw [hdrop] at hsent
      rcases List.mem_append.mp hsent with hsent | hsent
      · exact hold sent hsent v
      · exact hnew sent hsent d.handle v
    rcases h.unsent_cases with ⟨s, hs, hpoll, hunsent, -, -⟩ | hsub
    · refine
        { hlife with
          flights := hflights
          contained := hcontained
          handles := by rw [hunsent]; exact (s.strategy.pollRouting false).2.pollChunks_handles_nodup
          peers := by
            rw [hunsent]
            exact (s.strategy.pollRouting false).2.pollChunks_spec.peers_sublist.nodup
              (BTreeSet.nodup_toList _)
          fresh := fun d hd => hfresh d fun sent hsent v hv => ?_
          distinct := hdistinct }
      rw [hunsent] at hd
      have hissued := (hL.issued s hs sent hsent _ v hv).1
      exact absurd (s.le_handle_of_mem_poll (hpolls s hpoll) hd) (UInt64.not_le.mpr hissued)
    · exact
        { hlife with
          flights := hflights
          contained := hcontained
          handles := (hsub.map _).nodup hL.handles
          peers := (hsub.map _).nodup hL.peers
          fresh := fun d hd => hfresh d (hL.fresh d (hsub.subset hd))
          distinct := hdistinct }

/-! ### The watch -/

omit [Crates] in
/-- Since message `x`, which sent `v` under the token, `v` is spent, not in the batch, and not sent
again. -/
structure Ledger.Watched (x : Nat) (k : SessionKey) (token : DispatchHandle) (v : PeerId × Nat)
    (L : Ledger) : Prop where
  spends : ∀ s, L.session = some s → s.Spends token v
  unsent : ∀ d ∈ L.unsent, (d.peer, d.chunkId) ≠ v
  later : ∀ y, x < y → ∀ token', L.log[y]?.bind Sent.dispatch? ≠ some (k, token', v)

omit [Crates] in
/-- Once message `x` has sent `v` under the token, it is watched. -/
structure Ledger.Watches (n x : Nat) (i : Input RsStrategy) (k : SessionKey) (token : DispatchHandle)
    (v : PeerId × Nat) (L : Ledger) : Prop where
  sound : L.Sound n i k
  watched : L.log[x]?.bind Sent.dispatch? = some (k, token, v) → L.Watched x k token v

/-- What is spent stays spent, unless the session ends, its peer leaves or an outcome is fed back. -/
theorem LedgerStep.spends (h : LedgerStep A i k L L') (hpolls : ∀ s, A.polls s → s.Unwrapped)
    (hresult : ¬ i.isResultOf k) (hparts : ¬ i.parts v.1 k) (hL : L.Sound n i k) (hx : n ≤ x)
    (hsent : L.log[x]?.bind Sent.dispatch? = some (k, token, v))
    (hspends : ∀ s, L.session = some s → s.Spends token v) :
    ∀ s, L'.session = some s → s.Spends token v := by
  obtain ⟨sent, hmsg, hdispatch⟩ := Option.bind_eq_some_iff.mp hsent
  -- the watched dispatch was sent in this life
  have hmem : sent ∈ L.log.drop n := by
    refine List.mem_of_getElem? (i := x - n) ?_
    rw [List.getElem?_drop, Nat.add_sub_cancel' hx]
    exact hmsg
  cases h with
  | submitted | hosted | openRefused | opened | routed | chunkAccepted | abandoned | parked | unparked
  | swept => exact hspends
  | enrolled => exact Option.forall_mem_map.mpr hspends
  | @unsubscribed p subs hi =>
    subst hi
    exact Option.forall_mem_map.mpr fun s hs => (hspends s hs).detachPeer (fun hp => hparts ⟨hp, rfl⟩) false
  | @disconnected p hi =>
    subst hi
    simp only [Ledger.disconnect]
    split
    · exact Option.forall_mem_map.mpr fun s hs => (hspends s hs).detachPeer (fun hp => hparts hp) false
    · exact hspends
  | @created subs preamble state strategy now hnone hsubs hnew hbuilt =>
    exact absurd hdispatch (hL.unborn hnone ⟨_, hnew.creates⟩ sent hmem token v)
  | @polled s₀ hs hpoll =>
    rintro s ⟨rfl⟩
    exact (hspends s₀ hs).poll (hL.flights s₀ hs) (hpolls s₀ hpoll)
      (hL.issued s₀ hs sent hmem token v hdispatch).1
  -- a refused dispatch of the batch carries another token
  | @chunkRefused s₀ d rest err hs hd hopen hbatch =>
    rintro s ⟨rfl⟩
    refine (hspends s₀ hs).chunkSent (fun htoken => ?_) _ _
    exact hL.fresh d (hbatch ▸ List.mem_cons_self) sent hmem v (htoken ▸ hdispatch)
  | @took s₀ idx data hi hs =>
    rintro s ⟨rfl⟩
    obtain ⟨chunks, hchunks⟩ := s₀.takeChunk_chunks idx data
    have hold := hspends s₀ hs
    unfold Session.Spends at hold ⊢
    rwa [hchunks]
  | @decoded s₀ now hdecodes hs =>
    rintro s ⟨rfl⟩
    have hold := hspends s₀ hs
    unfold Session.Spends at hold ⊢
    rwa [s₀.decodeAndFinish_strategy]
  | resolved hi => exact absurd hi (Input.not_chunkSendResult hresult _ _ _)
  | @detached s₀ p completed hi hs =>
    rintro s ⟨rfl⟩
    refine (hspends s₀ hs).detachPeer (fun hp => hparts ?_) completed
    rcases hi with rfl | rfl
    · exact ⟨hp, rfl⟩
    · exact ⟨hp, rfl⟩
  | disposed => exact fun s hs => by cases hs

/-- **Every change keeps the watch**, unless its peer leaves or an outcome is fed back. -/
theorem LedgerStep.watches (h : LedgerStep A i k L L') (hpolls : ∀ s, A.polls s → s.Unwrapped)
    (hvalid : A.valid) (hdies : A.sweeps → ∀ b, ¬ i.creates k b) (hresult : ¬ i.isResultOf k)
    (hparts : ¬ i.parts v.1 k) (hx : n ≤ x) (hL : L.Watches n x i k token v) :
    L'.Watches n x i k token v := by
  have hsound := h.sound hpolls hvalid hdies hresult hL.sound
  refine ⟨hsound, fun hsent => ?_⟩
  rcases h.log_cases with ⟨s, d, rest, hs, hs', hd, hbatch, hrest, hlog⟩ | ⟨new, hlog, hnew⟩
  · rcases Nat.lt_or_ge x L.log.length with hlt | hge
    · -- another dispatch is accepted: it is in the batch, so it is not `v`
      rw [hlog, List.getElem?_append_left hlt] at hsent
      have hold := hL.watched hsent
      refine ⟨fun t ht => ?_, fun d' hd' => ?_, fun y hy token' hdy => ?_⟩
      · rw [hs', ← hs] at ht
        exact hold.spends t ht
      · rw [hrest] at hd'
        exact hold.unsent d' (hbatch ▸ List.mem_cons_of_mem d hd')
      · rw [hlog] at hdy
        rcases Nat.lt_trichotomy y L.log.length with hylt | rfl | hygt
        · rw [List.getElem?_append_left hylt] at hdy
          exact hold.later y hy token' hdy
        · rw [List.getElem?_concat_length] at hdy
          simp only [Option.bind_some, Sent.dispatch?, Option.some.injEq, Prod.mk.injEq] at hdy
          exact hold.unsent d (hbatch ▸ List.mem_cons_self) (Prod.ext_iff.mpr (Prod.ext_iff.mp hdy.2.2))
        · rw [List.getElem?_eq_none (by simpa using hygt)] at hdy
          cases hdy
    · -- the watch begins: the peer gets no other dispatch of the batch
      have hxlen : x = L.log.length := by
        by_contra hne
        rw [hlog, List.getElem?_eq_none (by rw [List.length_append, List.length_singleton]; omega)] at hsent
        cases hsent
      subst hxlen
      rw [hlog, List.getElem?_concat_length] at hsent
      simp only [Option.bind_some, Sent.dispatch?, Option.some.injEq, Prod.mk.injEq] at hsent
      obtain ⟨-, rfl, rfl⟩ := hsent
      refine ⟨fun t ht => ?_, fun d' hd' heq => ?_, fun y hy token' hdy => ?_⟩
      · obtain rfl := Option.some.inj (hs'.symm.trans ht)
        exact .inl hd.flying
      · have hpeers := hL.sound.peers
        rw [hbatch, List.map_cons, List.nodup_cons] at hpeers
        rw [hrest] at hd'
        have hpeer : d'.peer = d.peer := congrArg Prod.fst heq
        exact hpeers.1 (hpeer ▸ List.mem_map_of_mem hd')
      · rw [hlog, List.getElem?_eq_none (by simpa using hy)] at hdy
        cases hdy
  · have hlt : x < L.log.length := by
      by_contra hge
      obtain ⟨sent, hmsg, hdispatch⟩ := Option.bind_eq_some_iff.mp hsent
      rw [hlog, List.getElem?_append_right (Nat.not_lt.mp hge)] at hmsg
      exact hnew sent (List.mem_of_getElem? hmsg) token v hdispatch
    rw [hlog, List.getElem?_append_left hlt] at hsent
    have hold := hL.watched hsent
    refine ⟨h.spends hpolls hresult hparts hL.sound hx hsent hold.spends, fun d hd => ?_,
      fun y hy token' hdy => ?_⟩
    · rcases h.unsent_cases with ⟨s, hs, -, hunsent, -, -⟩ | hsub
      · rw [hunsent] at hd
        have hflights := hL.sound.flights s hs
        rintro rfl
        exact (Session.poll_flights hflights).2.2 d hd ((hold.spends s hs).blocks hflights)
      · exact hold.unsent d (hsub.subset hd)
    · rw [hlog] at hdy
      rcases Nat.lt_or_ge y L.log.length with hylt | hyge
      · rw [List.getElem?_append_left hylt] at hdy
        exact hold.later y hy token' hdy
      · obtain ⟨sent, hmsg, hdispatch⟩ := Option.bind_eq_some_iff.mp hdy
        rw [List.getElem?_append_right hyge] at hmsg
        exact hnew sent (List.mem_of_getElem? hmsg) token' v hdispatch

end Ledgers

/-! ## Steps -/

namespace Engine

section Steps

variable [Crates] {e : Engine RsStrategy Wire} {i : Input RsStrategy} {k : SessionKey} {n x : Nat}
  {token : DispatchHandle} {v : PeerId × Nat}

/-- The polls of the premises do not wrap, and the inputs are valid. -/
abbrev unwrapped : Premises := ⟨Session.Unwrapped, True, True, True⟩

/-- When a peer leaves, nothing is sent. -/
theorem step_log_of_parts {p : PeerId} (h : i.parts p k) : (e.step i).2.net.log = e.net.log := by
  cases i with
  | subscribe | connect | publish | recv => exact h.elim
  | event ev =>
    refine congrArg Wire.log (((e.handleEvent ev).maybeRunCleanup_frame).1.trans ?_)
    cases ev with
    | unsubscribe | peerDisconnected | peerReconstructed | sessionClosed => rfl
    | handshake | subscribe | sessionOpen | routingUpdate | chunk | peerConnected | chunkSendResult =>
      exact h.elim

/-- **One step, in the ledger of one session**, keeps what was sent sound. -/
theorem step_sound (hi : i.Valid) (he : e.RelayFactories) (hpolls : e.StepPolls Session.Unwrapped i)
    (hresult : ¬ i.isResultOf k) (h : (e.ledger k).Sound n i k) :
    ((e.step i).2.ledger k).Sound n .recv k := by
  have hbefore := (beforeDecode_ledger (A := unwrapped) i e k (fun _ => ⟨hi, he⟩) hpolls).induct
    (fun hstep hL => hstep.sound (fun _ => id) trivial False.elim hresult hL) h
  exact (afterDecode_ledger_of (A := unwrapped) trivial trivial i e k
    fun _ => beforeDecode_relayFactories hi he).induct
    (fun hstep hL => hstep.sound (fun _ => id) trivial (fun _ _ => id) id hL) hbefore.settled

/-- A step that feeds no outcome back. -/
theorem step_watches (hi : i.Valid) (he : e.RelayFactories) (hpolls : e.StepPolls Session.Unwrapped i)
    (hresult : ¬ i.isResultOf k) (hx : n ≤ x)
    (hparts : e.net.log[x]?.bind Sent.dispatch? = some (k, token, v) → ¬ i.parts v.1 k)
    (h : (e.ledger k).Watches n x i k token v) :
    ((e.step i).2.ledger k).Watches n x .recv k token v := by
  by_cases hleaves : i.parts v.1 k
  · refine ⟨step_sound hi he hpolls hresult h.sound, fun hsent => ?_⟩
    have hlog : ((e.step i).2.ledger k).log = e.net.log := step_log_of_parts hleaves
    rw [hlog] at hsent
    exact absurd hleaves (hparts hsent)
  · have hbefore := (beforeDecode_ledger (A := unwrapped) i e k (fun _ => ⟨hi, he⟩) hpolls).induct
      (fun hstep hL => hstep.watches (fun _ => id) trivial False.elim hresult hleaves hx hL) h
    have hsettled : ((e.beforeDecode i).2.ledger k).Watches n x .recv k token v :=
      ⟨hbefore.sound.settled, hbefore.watched⟩
    exact (afterDecode_ledger_of (A := unwrapped) trivial trivial i e k
      fun _ => beforeDecode_relayFactories hi he).induct
      (fun hstep hL => hstep.watches (fun _ => id) trivial (fun _ _ => id) id id hx hL) hsettled

/-- An outcome that is booked on its own dispatch. -/
theorem afterResolve_watches {peer : PeerId} {token' : DispatchHandle} {ok : Bool}
    (hpending : (k.1, k.2, token') ∈ e.pendingSends)
    (hown : ∀ s, e.session? k.1 k.2 = some s → ∀ w ∈ s.strategy.inFlight[token']?, w.1 = peer
      ∧ (e.net.log[x]?.bind Sent.dispatch? = some (k, token, v) → token' = token → w = v ∧ ok))
    (h : (e.ledger k).Watches n x (.event (.chunkSendResult peer k.1 k.2 token' ok)) k token v) :
    ((e.afterResolve peer k.1 k.2 token' ok).ledger k).Watches n x .recv k token v := by
  have hstep : LedgerStep unwrapped (.event (.chunkSendResult peer k.1 k.2 token' ok)) k (e.ledger k)
      { e.ledger k with
        pending := Function.update (e.ledger k).pending token' none
        session := (e.ledger k).session.map (·.chunkSent peer token' ok) } :=
    .resolved rfl (ExtTreeMap.mem_iff_isSome_getElem?.mp hpending)
  -- up to its drain the result is one ledger step, which keeps what a life says
  have hlife := hstep.inLife (fun _ => id) (fun _ _ => id) h.sound.toInLife
  rw [ledger_afterResolve]
  refine ⟨{ hlife.settled with
      flights := fun s hs => ?_
      contained := fun s hs => ?_
      handles := List.nodup_nil
      peers := List.nodup_nil
      fresh := nofun
      distinct := h.sound.distinct }, fun hsent => ⟨fun s hs => ?_, nofun, (h.watched hsent).later⟩⟩
  all_goals obtain ⟨s₀, hs₀, rfl⟩ := Option.map_eq_some_iff.mp hs
  · exact (h.sound.flights s₀ hs₀).chunkSent peer token' ok fun w hw => (hown s₀ hs₀ w hw).1
  · exact Session.contained_kept.sent peer token' ok (fun w hw => (hown s₀ hs₀ w hw).1)
      (h.sound.contained s₀ hs₀)
  · have hspends := (h.watched hsent).spends s₀ hs₀
    -- the result of the flight itself lands or revives it; any other one leaves it
    by_cases htoken : token' = token
    · subst htoken
      refine hspends.chunkSent_self (h.sound.flights s₀ hs₀) fun w hw => ?_
      obtain ⟨hpeer, hself⟩ := hown s₀ hs₀ w hw
      obtain ⟨rfl, hok⟩ := hself hsent rfl
      exact ⟨rfl, hpeer.symm, hok⟩
    · exact hspends.chunkSent htoken peer ok

/-- A step that feeds an outcome back. -/
theorem resultStep_watches {peer : PeerId} {token' : DispatchHandle} {ok : Bool}
    (he : e.RelayFactories)
    (hpolls : e.StepPolls Session.Unwrapped (.event (.chunkSendResult peer k.1 k.2 token' ok)))
    (hx : n ≤ x)
    (hown : (k.1, k.2, token') ∈ e.pendingSends → ∀ s, e.session? k.1 k.2 = some s →
      ∀ w ∈ s.strategy.inFlight[token']?, w.1 = peer
        ∧ (e.net.log[x]?.bind Sent.dispatch? = some (k, token, v) → token' = token → w = v ∧ ok))
    (h : (e.ledger k).Watches n x (.event (.chunkSendResult peer k.1 k.2 token' ok)) k token v) :
    ((e.step (.event (.chunkSendResult peer k.1 k.2 token' ok))).2.ledger k).Watches n x .recv k
      token v := by
  have hacts := chunkSendResult_acts (D := premisedTerms unwrapped) trivial e peer k.1 k.2 token' ok hpolls
  have hstart : (if (k.1, k.2, token') ∈ e.pendingSends then e.afterResolve peer k.1 k.2 token' ok
      else e).RelayFactories
      ∧ ((if (k.1, k.2, token') ∈ e.pendingSends then e.afterResolve peer k.1 k.2 token' ok
        else e).ledger k).Watches n x .recv k token v := by
    split
    case isTrue hpending =>
      have hact : Act (.event (.chunkSendResult peer k.1 k.2 token' ok)) Terms.any e
          (e.afterResolve peer k.1 k.2 token' ok) := .resolved rfl hpending
      exact ⟨hact.relayFactories nofun he, afterResolve_watches hpending (hown hpending) h⟩
    case isFalse => exact ⟨he, h.sound.settled, h.watched⟩
  exact (Acts.ledger hacts (fun _ => ⟨trivial, hstart.1⟩) k).induct
    (fun hstep hL => hstep.watches (fun _ => id) trivial (fun _ _ => id) id id hx hL) hstart.2

end Steps

/-! ## Runs -/

section Runs

variable [Crates] {e : Engine RsStrategy Wire} {inputs : List (Input RsStrategy)} {k : SessionKey}
  {src : Nat → Nat} {n x y t : Nat} {token : DispatchHandle} {v : PeerId × Nat}

/-- Input `t` comes between messages `x` and `y`: the one was submitted, and the other was not. -/
def Between (e : Engine RsStrategy Wire) (inputs : List (Input RsStrategy)) (x y t : Nat) : Prop :=
  x < (e.run (inputs.take t)).net.log.length ∧ (e.run (inputs.take t)).net.log.length ≤ y

/-- Between messages `x` and `y`, message `x` is reported as failed, or peer `p`, attached to the
session of `k`, leaves it. -/
def Released (e : Engine RsStrategy Wire) (inputs : List (Input RsStrategy)) (src : Nat → Nat)
    (k : SessionKey) (p : PeerId) (x y : Nat) : Prop :=
  ∃ t, ∃ ht : t < inputs.length, e.Between inputs x y t
    ∧ (inputs[t].fails ∧ src t = x
      ∨ inputs[t].parts p k ∧ ∃ s, (e.run (inputs.take t)).session? k.1 k.2 = some s
        ∧ p ∈ s.strategy.attachedPeers)

/-- The session of `k` lives from message `x` to message `y`. -/
def SameLife (e : Engine RsStrategy Wire) (inputs : List (Input RsStrategy)) (k : SessionKey)
    (x y : Nat) : Prop :=
  ∀ t ≤ inputs.length, e.Between inputs x y t → ((e.run (inputs.take t)).session? k.1 k.2).isSome

/-- Of two accepted dispatches of one shard to one peer in one life of the session, the first one is
released before the second one is submitted. -/
def SentOnce (e : Engine RsStrategy Wire) (inputs : List (Input RsStrategy)) (src : Nat → Nat) : Prop :=
  ∀ k token token' v x y, e.net.log.length ≤ x → x < y →
    (e.run inputs).net.log[x]?.bind Sent.dispatch? = some (k, token, v) →
    (e.run inputs).net.log[y]?.bind Sent.dispatch? = some (k, token', v) →
    SameLife e inputs k x y → Released e inputs src k v.1 x y

omit [Crates] in
/-- The step that submits message `y`. -/
theorem exists_submission [Crates] (hstart : e.net.log.length ≤ y)
    (hy : y < (e.run inputs).net.log.length) :
    ∃ t, t < inputs.length ∧ (e.run (inputs.take t)).net.log.length ≤ y
      ∧ y < (e.run (inputs.take (t + 1))).net.log.length := by
  have hfirst : ∀ l ≤ inputs.length, y < (e.run (inputs.take l)).net.log.length →
      ∃ t, t < inputs.length ∧ (e.run (inputs.take t)).net.log.length ≤ y
        ∧ y < (e.run (inputs.take (t + 1))).net.log.length := by
    intro l
    induction l with
    | zero => exact fun _ hlt => absurd hlt (Nat.not_lt.mpr hstart)
    | succ l ih =>
      intro hl hlt
      rcases Nat.lt_or_ge y (e.run (inputs.take l)).net.log.length with hlt' | hge
      · exact ih (Nat.le_of_succ_le hl) hlt'
      · exact ⟨l, hl, hge, hlt⟩
  exact hfirst inputs.length (Nat.le_refl _) (by rwa [List.take_length])

omit [Crates] in
/-- A result for a chunk that is pending and in flight resolves its dispatch. -/
theorem mem_resolves {peer : PeerId} {token : DispatchHandle} {ok : Bool} {s : Session RsStrategy}
    {w : PeerId × Nat} (hpending : (k.1, k.2, token) ∈ e.pendingSends)
    (hs : e.session? k.1 k.2 = some s) (hw : w ∈ s.strategy.inFlight[token]?) :
    (k, token, w) ∈ e.resolves (.event (.chunkSendResult peer k.1 k.2 token ok)) := by
  have hw : s.strategy.inFlight[token]? = some w := hw
  simp only [resolves, if_pos hpending, hs, Option.bind_some, hw]
  rfl

/-- One step of the watch. -/
theorem watches_step (hvalid : ∀ i ∈ inputs, i.Valid) (he : e.RelayFactories)
    (hunwrapped : e.EachStep (StepPolls Session.Unwrapped) inputs) (hreports : e.Reports inputs src)
    (howns : e.ResolvesOwn inputs src) (ht : t < inputs.length) (hn : n ≤ t)
    (hnone : (e.run (inputs.take n)).session? k.1 k.2 = none)
    (hlive : n < t → ((e.run (inputs.take t)).session? k.1 k.2).isSome)
    (hx : (e.run (inputs.take n)).net.log.length ≤ x)
    (hty : (e.run (inputs.take t)).net.log.length ≤ y) (hkept : ¬ Released e inputs src k v.1 x y)
    (h : ((e.run (inputs.take t)).ledger k).Watches (e.run (inputs.take n)).net.log.length x inputs[t] k
      token v) :
    ((e.run (inputs.take (t + 1))).ledger k).Watches (e.run (inputs.take n)).net.log.length x .recv k
      token v := by
  have hfactories : (e.run (inputs.take t)).RelayFactories :=
    run_induct (P := RelayFactories) (fun e j hj he => he.step (hvalid j (List.mem_of_mem_take hj))) he
  have hpolls := hunwrapped.get ht
  have hbetween : (e.run (inputs.take t)).net.log[x]?.bind Sent.dispatch? = some (k, token, v) →
      e.Between inputs x y t := by
    intro hsent
    obtain ⟨sent, hmsg, -⟩ := Option.bind_eq_some_iff.mp hsent
    exact ⟨(List.getElem?_eq_some_iff.mp hmsg).1, hty⟩
  rw [run_take_succ e ht]
  by_cases hresult : inputs[t].isResultOf k
  · obtain ⟨peer, token', ok, hi⟩ : ∃ peer token' ok,
        inputs[t] = .event (.chunkSendResult peer k.1 k.2 token' ok) := by
      unfold Input.isResultOf at hresult
      split at hresult
      case h_1 peer c m token' ok hi =>
        subst hresult
        exact ⟨peer, token', ok, hi⟩
      case h_2 => exact hresult.elim
    have hnamed := hreports.named t ht
    have hown := howns t ht
    rw [hi] at hpolls h hnamed hown ⊢
    refine resultStep_watches hfactories hpolls hx (fun hpending s hs w hw => ?_) h
    obtain ⟨hsrc, hbirth⟩ := hown _ (mem_resolves hpending hs hw)
    obtain ⟨d, hd, -, -, hpeer⟩ := hnamed
    obtain rfl := Option.some.inj (hsrc.symm.trans hd)
    refine ⟨hpeer, ?_⟩
    rintro hsent rfl
    have hself : x = src t := h.sound.eq_of_token hx (hbirth n hn hnone) hsent hsrc
    subst hself
    refine ⟨(congrArg (·.2.2) (Option.some.inj (hsent.symm.trans hsrc))).symm, ?_⟩
    cases ok with
    | true => rfl
    | false =>
      refine absurd ⟨t, ht, hbetween hsent, .inl ⟨?_, rfl⟩⟩ hkept
      rw [hi]
      rfl
  · refine step_watches (hvalid _ (List.getElem_mem ht)) hfactories hpolls hresult hx
      (fun hsent hparts => ?_) h
    -- the session is born before it sends, and what it sent is with an attached peer
    have hlate : n < t := by
      refine Nat.lt_of_le_of_ne hn fun heq => ?_
      subst heq
      exact absurd (hbetween hsent).1 (Nat.not_lt.mpr hx)
    obtain ⟨s, hs⟩ := Option.isSome_iff_exists.mp (hlive hlate)
    have hattached := ((h.watched hsent).spends s hs).attached (h.sound.contained s hs)
    exact hkept ⟨t, ht, hbetween hsent, .inr ⟨hparts, s, hs, hattached⟩⟩

/-- **As long as the session lives and the shard is not released, it is watched.** -/
theorem run_watches (token : DispatchHandle) (v : PeerId × Nat) (hvalid : ∀ i ∈ inputs, i.Valid)
    (he : e.RelayFactories)
    (hunwrapped : e.EachStep (StepPolls Session.Unwrapped) inputs)
    (hbalanced : ∀ l, ((e.run l).ledger k).Balanced) (hreports : e.Reports inputs src)
    (howns : e.ResolvesOwn inputs src) (hn : n ≤ t) (ht : t < inputs.length)
    (hnone : (e.run (inputs.take n)).session? k.1 k.2 = none)
    (hlive : ∀ z, n < z → z ≤ t → ((e.run (inputs.take z)).session? k.1 k.2).isSome)
    (hx : (e.run (inputs.take n)).net.log.length ≤ x)
    (hty : (e.run (inputs.take t)).net.log.length ≤ y) (hkept : ¬ Released e inputs src k v.1 x y) :
    ((e.run (inputs.take (t + 1))).ledger k).Watches (e.run (inputs.take n)).net.log.length x .recv k
      token v := by
  induction t, hn using Nat.le_induction with
  | base =>
    refine watches_step hvalid he hunwrapped hreports howns ht (Nat.le_refl n) hnone
      (fun hlt => absurd hlt (Nat.lt_irrefl n)) hx hty hkept ⟨.begin (hbalanced _) hnone rfl, fun hsent => ?_⟩
    obtain ⟨sent, hmsg, -⟩ := Option.bind_eq_some_iff.mp hsent
    exact absurd (List.getElem?_eq_some_iff.mp hmsg).1 (Nat.not_lt.mpr hx)
  | succ t hn ih =>
    have hlog : (e.run (inputs.take t)).net.log.length ≤ (e.run (inputs.take (t + 1))).net.log.length :=
      (run_log_extends e (List.take_prefix_take_left (Nat.le_succ t))).length_le
    have hwatches := ih (Nat.lt_of_succ_lt ht) (fun z hz hzt => hlive z hz (Nat.le_succ_of_le hzt))
      (hlog.trans hty)
    have halive := hlive (t + 1) (Nat.lt_succ_of_le hn) (Nat.le_refl _)
    exact watches_step hvalid he hunwrapped hreports howns ht (Nat.le_succ_of_le hn) hnone
      (fun _ => halive) hx hty hkept ⟨hwatches.sound.next halive, hwatches.watched⟩

/-- **No shard is sent to a peer twice** in one life of its session, unless the first send is reported
as failed or the peer leaves in between; as long as results come in during the life they belong to and
no handle counter wraps. -/
theorem run_sentOnce (localPeer : PeerId) (net : Wire) (delivered : Sink) (config : EngineConfig)
    (clock : Clock) (inputs : List (Input RsStrategy)) (src : Nat → Nat)
    (hvalid : ∀ i ∈ inputs, i.Valid)
    (hreports : (withConfig localPeer net delivered config clock).Reports inputs src)
    (hunwrapped : (withConfig localPeer net delivered config clock).EachStep
      (StepPolls Session.Unwrapped) inputs)
    (htimely : (withConfig localPeer net delivered config clock).Timely inputs src) :
    (withConfig localPeer net delivered config clock).SentOnce inputs src := by
  intro k token token' v x y hstart hxy hsentx hsenty hlife
  by_contra hkept
  have howns := htimely.resolvesOwn hvalid hreports hunwrapped
  obtain ⟨sent, hmsg, -⟩ := Option.bind_eq_some_iff.mp hsenty
  obtain ⟨t, ht, hty, hyt⟩ := exists_submission (hstart.trans (Nat.le_of_lt hxy))
    (List.getElem?_eq_some_iff.mp hmsg).1
  obtain ⟨n, hn, hnone, hlive⟩ := exists_birth (k := k)
    (e := withConfig localPeer net delivered config clock) (by simp [run, withConfig, session?]) inputs t
  have hlog : ∀ {a b}, a ≤ b →
      ((withConfig localPeer net delivered config clock).run (inputs.take a)).net.log
        <+: ((withConfig localPeer net delivered config clock).run (inputs.take b)).net.log :=
    fun hab => run_log_extends _ (List.take_prefix_take_left hab)
  -- the life of the session goes back beyond message `x`
  have hx : ((withConfig localPeer net delivered config clock).run (inputs.take n)).net.log.length
      ≤ x := by
    by_contra hlt
    have halive := hlife n (hn.trans (Nat.le_of_lt ht))
      ⟨Nat.not_le.mp hlt, ((hlog hn).length_le).trans hty⟩
    rw [hnone] at halive
    cases halive
  have hwatches := run_watches token v hvalid (relayFactories_withConfig _ _ _ _ _)
    hunwrapped (fun l => run_balanced localPeer net delivered config clock l k) hreports howns hn ht hnone
    hlive hx hty hkept
  have hpre := run_log_extends (withConfig localPeer net delivered config clock)
    (List.take_prefix (t + 1) inputs)
  have hget : ∀ {z}, z ≤ y →
      ((withConfig localPeer net delivered config clock).run (inputs.take (t + 1))).net.log[z]?
        = ((withConfig localPeer net delivered config clock).run inputs).net.log[z]? := by
    intro z hz
    obtain ⟨rest, hrest⟩ := hpre
    rw [← hrest, List.getElem?_append_left (Nat.lt_of_le_of_lt hz hyt)]
  rw [← hget (Nat.le_of_lt hxy)] at hsentx
  rw [← hget (Nat.le_refl y)] at hsenty
  exact (hwatches.watched hsentx).later y hxy token' hsenty

end Runs

section OneShard

attribute [local instance] oneShard

/-- A message is published to a peer; the first of its two shards is reported as failed, and sent
again. -/
def publishRefunded : List (Input RsStrategy) :=
  [.subscribe "c" (rsRelayFactory {} fun _ => 7), .event (.subscribe 1 "c"),
    .publish "c" "m" OneShard.origin (OneShard.preambleBytes OneShard.preamble),
    .event (.chunkSendResult 1 "c" "m" 0 false)]

theorem publishRefunded_valid : ∀ i ∈ publishRefunded, i.Valid := by
  simp only [publishRefunded, List.mem_cons, List.not_mem_nil, or_false]
  rintro i (rfl | rfl | rfl | rfl)
  · exact ⟨_, _, rfl⟩
  · trivial
  · exact ⟨_, _, _, OneShard.newOrigin_eq⟩
  · trivial

/-- A chunk that failed is sent again, and once. -/
theorem run_sentOnce_refunded :
    (∀ i ∈ publishRefunded, i.Valid)
    ∧ (nodeTicking second).Reports publishRefunded (fun _ => 2)
    ∧ (nodeTicking second).EachStep (StepPolls Session.Unwrapped) publishRefunded
    ∧ (nodeTicking second).Timely publishRefunded (fun _ => 2)
    ∧ (nodeTicking second).SentOnce publishRefunded (fun _ => 2) := by
  have hreports : (nodeTicking second).Reports publishRefunded (fun _ => 2) := by decide +kernel
  have hpolls : (nodeTicking second).EachStep (StepPolls Session.Unwrapped) publishRefunded := by
    decide +kernel
  have htimely : (nodeTicking second).Timely publishRefunded (fun _ => 2) := by decide +kernel
  exact ⟨publishRefunded_valid, hreports, hpolls, htimely,
    run_sentOnce 0 ⟨fun _ _ => .ok (), []⟩ ⟨8, [], false⟩ {} ⟨fun n => n * second, 0⟩
      publishRefunded (fun _ => 2) publishRefunded_valid hreports hpolls htimely⟩

/-- A message is published to a peer and disposed, and published again; the failure of the first
dispatch of the first life comes in last. -/
def publishRefundedLate : List (Input RsStrategy) :=
  [.subscribe "c" (rsRelayFactory {} fun _ => 7), .event (.subscribe 1 "c"),
    .publish "c" "m" OneShard.origin (OneShard.preambleBytes OneShard.preamble),
    .event (.routingUpdate 1 "c" "m" []), .event (.routingUpdate 1 "c" "m" []),
    .publish "c" "m" OneShard.origin (OneShard.preambleBytes OneShard.preamble),
    .event (.chunkSendResult 1 "c" "m" 0 false)]

/-- The failure of the first life takes a dispatch of the second one back, and its shard is sent
again. -/
theorem run_not_sentOnce :
    (∀ i ∈ publishRefundedLate, i.Valid)
    ∧ (nodeTicking (200 * second)).Reports publishRefundedLate (fun _ => 2)
    ∧ ¬ (nodeTicking (200 * second)).SentOnce publishRefundedLate (fun _ => 2) := by
  refine ⟨?_, by decide +kernel, fun h => ?_⟩
  · intro i hi
    simp only [publishRefundedLate, List.mem_cons, List.not_mem_nil, or_false] at hi
    rcases hi with rfl | rfl | rfl | rfl | rfl | rfl | rfl
    · exact ⟨_, _, rfl⟩
    · trivial
    · exact ⟨_, _, _, OneShard.newOrigin_eq⟩
    · trivial
    · trivial
    · exact ⟨_, _, _, OneShard.newOrigin_eq⟩
    · trivial
  · have hbetween : ∀ t < 8, (nodeTicking (200 * second)).Between publishRefundedLate 6 8 t → t = 6 := by
      unfold Between
      decide +kernel
    have hlife : SameLife (nodeTicking (200 * second)) publishRefundedLate ("c", "m") 6 8 := by
      unfold SameLife Between
      decide +kernel
    obtain ⟨t, ht, hb, hreleased⟩ := h ("c", "m") 0 2 (1, 0) 6 8 (by decide +kernel) (by decide)
      (by decide +kernel) (by decide +kernel) hlife
    obtain rfl := hbetween t (Nat.lt_succ_of_lt ht) hb
    rcases hreleased with ⟨-, hsrc⟩ | ⟨hparts, -⟩
    · cases hsrc
    · exact hparts

end OneShard

end Engine

end Ethp2p
