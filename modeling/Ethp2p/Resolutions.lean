/-
# Ethp2p.Resolutions — which dispatch a send result resolves.

A dispatch is submitted under a token, and the transport reports its outcome under the same token, at
any later time.  Tokens count from zero in every session, and the engine finds the dispatch of a result
by `(channel, message_id, token)`.  `resolves` is the flight that a result makes the engine resolve;
`run_resolvesOwn` says that it is the flight of the reported dispatch, the same peer and the same
shard, exactly as far as the result comes in during the life of the session it was dispatched in.

What carries it is `InLife`: within one life, every accepted dispatch has a token below the counter,
and whatever is in flight under that token is what was dispatched under it.  A session that is created
again counts from zero again, and a result of the last life can meet a token of this one
(`run_not_resolvesOwn`).
-/
import Ethp2p.Attachments
import Ethp2p.Opens

namespace Ethp2p

open Std

/-- A dispatch: the session's key, the token, and what is sent to whom. -/
abbrev Dispatch := SessionKey × DispatchHandle × PeerId × Nat

/-- The dispatch that was submitted, if the message is a chunk that was accepted. -/
def Sent.dispatch? : Sent → Option Dispatch
  | ⟨.chunk p c m idx _ token, .ok ()⟩ => some ((c, m), token, p, idx)
  | _ => none

theorem Sent.dispatch?_key {sent : Sent} {d : Dispatch} (h : sent.dispatch? = some d) :
    sent.msg.sessionKey? = some d.1 := by
  unfold Sent.dispatch? at h
  split at h
  · cases h
    rfl
  · cases h

/-! ## Handles within a session -/

/-- No old handle comes to carry anything else. -/
structure Session.CountsOn (s s' : Session RsStrategy) : Prop where
  nextHandle_le : s.strategy.nextHandle ≤ s'.strategy.nextHandle
  flight : ∀ token < s.strategy.nextHandle, ∀ v, s'.strategy.inFlight[token]? = some v →
    s.strategy.inFlight[token]? = some v

/-- Without a wrap the handles of a batch are new. -/
theorem RsStrategy.le_handle_of_mem_pollChunks {s : RsStrategy}
    (h : s.nextHandle.toNat + s.pollChunks.1.length < 2 ^ 64) {d : ChunkDispatch Nat}
    (hd : d ∈ s.pollChunks.1) : s.nextHandle ≤ d.handle := by
  have hmem : d.handle ∈ s.pollChunks.1.map (·.handle) := List.mem_map_of_mem hd
  rw [s.pollChunks_spec.handles_eq] at hmem
  obtain ⟨j, hj, hdj⟩ := List.mem_map.mp hmem
  have hj := List.mem_range.mp hj
  rw [UInt64.le_iff_toNat_le, ← hdj, UInt64.toNat_add, UInt64.toNat_ofNat',
    Nat.mod_eq_of_lt (a := j) (by omega), Nat.mod_eq_of_lt (by omega)]
  omega

namespace Session

section Ops

variable [Crates] (s : Session RsStrategy)

/-- What a poll adds to the flights is its batch. -/
theorem poll_inFlight :
    s.poll.2.strategy.inFlight = RsStrategy.addFlights s.strategy.inFlight s.poll.1.dispatches := by
  refine (s.strategy.pollRouting false).2.pollChunks_spec.inFlight_eq.trans ?_
  rcases s.strategy.pollRouting_cases false with hr | hr <;> rw [hr] <;>
    simp [poll, Strategy.pollRouting, Strategy.pollChunks, hr]

/-- The handles of a poll are new. -/
theorem le_handle_of_mem_poll (h : s.Unwrapped) {d : ChunkDispatch Nat}
    (hd : d ∈ s.poll.1.dispatches) : s.strategy.nextHandle ≤ d.handle := by
  have hroute : (s.strategy.pollRouting false).2.nextHandle = s.strategy.nextHandle := by
    rcases s.strategy.pollRouting_cases false with hr | hr <;> rw [hr]
  refine hroute ▸ RsStrategy.le_handle_of_mem_pollChunks (s := (s.strategy.pollRouting false).2) ?_ hd
  rw [hroute]
  exact h

/-- A poll counts its handles on. -/
theorem countsOn_poll (h : s.Unwrapped) : s.CountsOn s.poll.2 where
  nextHandle_le := poll_nextHandle_le h
  flight token htoken v hv := by
    rw [poll_inFlight] at hv
    rcases RsStrategy.get_addFlights hv with ⟨d, hd, rfl, -⟩ | ⟨-, hold⟩
    · exact absurd (s.le_handle_of_mem_poll h hd) (UInt64.not_le.mpr htoken)
    · exact hold

end Ops

end Session

/-- No other operation issues a handle. -/
theorem Session.countsOn_opRel [Crates] : Session.OpRel Session.Unwrapped Session.CountsOn where
  refl s := ⟨UInt64.le_refl _, fun _ _ _ hv => hv⟩
  attach s p := ⟨UInt64.le_refl _, fun _ _ _ hv => hv⟩
  detach s p completed := by
    refine ⟨UInt64.le_refl _, fun token _ v hv => ?_⟩
    have hv' : (s.strategy.inFlight.filter fun _ v => v.1 ≠ p)[token]? = some v := hv
    rw [BTreeMap.get_filter, Option.filter_eq_some_iff] at hv'
    exact hv'.1
  poll s h := s.countsOn_poll h
  sent s p handle ok := by
    refine ⟨le_of_eq (s.strategy.chunkSent_nextHandle p handle ok).symm, fun token _ v hv => ?_⟩
    have hv' : (s.strategy.inFlight.erase handle)[token]? = some v :=
      (congrArg (·[token]?) (s.strategy.chunkSent_inFlight p handle ok)).symm.trans hv
    rw [BTreeMap.get_erase] at hv'
    split at hv'
    · cases hv'
    · exact hv'
  take s idx data := by
    obtain ⟨chunks, hchunks⟩ := s.takeChunk_chunks idx data
    refine ⟨?_, fun token _ v hv => ?_⟩
    · rw [hchunks]
      exact UInt64.le_refl _
    · rw [hchunks] at hv
      exact hv
  finish s := by
    refine ⟨?_, fun token _ v hv => ?_⟩
    · rw [s.decodeAndFinish_strategy]
      exact UInt64.le_refl _
    · rwa [s.decodeAndFinish_strategy] at hv

/-! ## One ledger -/

section Ledgers

variable [Crates] {A : Premises} {i j : Input RsStrategy} {k : SessionKey} {L L' : Ledger} {n : Nat}

/-- **What one change submits**: a dispatch of the batch, backed by the session, or no dispatch of the
session. -/
theorem LedgerStep.log_cases (h : LedgerStep A i k L L') :
    (∃ s d rest, L.session = some s ∧ L'.session = some s ∧ s.Backs d ∧ L.unsent = d :: rest
      ∧ L'.unsent = rest
      ∧ L'.log = L.log ++ [Sent.mk (.chunk d.peer k.1 k.2 d.chunkId d.payload d.handle) (.ok ())])
    ∨ ∃ new, L'.log = L.log ++ new ∧ ∀ sent ∈ new, ∀ token v, sent.dispatch? ≠ some (k, token, v) := by
  cases h with
  | chunkAccepted hs hd _ hbatch => exact .inl ⟨_, _, _, hs, hs, hd, hbatch, rfl, rfl⟩
  | @submitted sent hother =>
    refine .inr ⟨[sent], rfl, fun x hx token v hd => hother ?_⟩
    cases List.mem_singleton.mp hx
    exact Sent.dispatch?_key hd
  | openRefused | opened | routed | chunkRefused =>
    refine .inr ⟨[_], rfl, fun x hx token v hd => ?_⟩
    cases List.mem_singleton.mp hx
    cases hd
  | hosted | enrolled | unsubscribed | disconnected | created | polled | abandoned | took | decoded
  | resolved | detached | parked | unparked | disposed | swept =>
    exact .inr ⟨[], (List.append_nil _).symm, by simp⟩

omit [Crates] in
/-- The session of `k` lives since the first `n` messages, or input `i` may still create it: what was
dispatched in this life is what is in flight under its token, if anything. -/
structure Ledger.InLife (n : Nat) (i : Input RsStrategy) (k : SessionKey) (L : Ledger) : Prop where
  start : n ≤ L.log.length
  balanced : L.Balanced
  tokens : L.TokensBelow
  issued : ∀ s, L.session = some s → ∀ sent ∈ L.log.drop n, ∀ token v,
    sent.dispatch? = some (k, token, v) → token < s.strategy.nextHandle
      ∧ ∀ w, s.strategy.inFlight[token]? = some w → w = v
  unborn : L.session = none → (∃ b, i.creates k b) → ∀ sent ∈ L.log.drop n, ∀ token v,
    sent.dispatch? ≠ some (k, token, v)

namespace Ledger.InLife

omit [Crates] in
/-- A life begins. -/
theorem begin (hbalanced : L.Balanced) (hnone : L.session = none) : L.InLife L.log.length i k where
  start := Nat.le_refl _
  balanced := hbalanced
  tokens := ⟨by simp [hnone], by simp [hnone]⟩
  issued := by simp
  unborn := by simp

omit [Crates] in
theorem settled (h : L.InLife n i k) : L.InLife n .recv k :=
  { h with unborn := fun _ ⟨_, hb⟩ => hb.elim }

omit [Crates] in
/-- The next input finds the session alive. -/
theorem next (h : L.InLife n .recv k) (hlive : L.session.isSome) : L.InLife n j k :=
  { h with unborn := fun hnone => absurd hnone (Option.isSome_iff_ne_none.mp hlive) }

omit [Crates] in
/-- A dispatch that was submitted in this life has a handle that was counted, and is in flight as it was
submitted, if at all. -/
theorem issued_at (h : L.InLife n i k) {s : Session RsStrategy} (hs : L.session = some s) {x : Nat}
    {sent : Sent} (hsent : L.log[x]? = some sent) (hx : n ≤ x) {token : DispatchHandle}
    {v : PeerId × Nat} (hd : sent.dispatch? = some (k, token, v)) :
    token < s.strategy.nextHandle ∧ ∀ w, s.strategy.inFlight[token]? = some w → w = v := by
  refine h.issued s hs sent (List.mem_of_getElem? (i := x - n) ?_) token v hd
  rw [List.getElem?_drop, Nat.add_sub_cancel' hx]
  exact hsent

end Ledger.InLife

/-- **A life stays one**, if its polls do not wrap the counter. -/
theorem LedgerStep.inLife (h : LedgerStep A i k L L') (hpolls : ∀ s, A.polls s → s.Unwrapped)
    (hdies : A.sweeps → ∀ b, ¬ i.creates k b) (hL : L.InLife n i k) :
    L'.InLife n i k := by
  have htokens := h.tokensBelow hpolls hL.balanced hL.tokens
  -- what the step writes goes behind what was written in this life
  have hdrop : ∀ {new}, L'.log = L.log ++ new → L'.log.drop n = L.log.drop n ++ new := fun hlog => by
    rw [hlog, List.drop_append_of_le_length hL.start]
  -- the step writes one chunk of the batch, or nothing with a token
  rcases h.log_cases with ⟨s, d, rest, hs, hs', hd, hbatch, -, hlog⟩ | ⟨new, hlog, hnew⟩
  · refine ⟨?_, h.balanced hL.balanced, htokens, fun t ht sent hsent token v hv => ?_, ?_⟩
    · rw [hlog, List.length_append]
      exact Nat.le_add_right_of_le hL.start
    · obtain rfl := Option.some.inj (hs'.symm.trans ht)
      rw [hdrop hlog] at hsent
      rcases List.mem_append.mp hsent with hsent | hsent
      · exact hL.issued s hs sent hsent token v hv
      · cases List.mem_singleton.mp hsent
        cases hv
        have hmem : d ∈ L.unsent := by rw [hbatch]; exact List.mem_cons_self
        exact ⟨hL.tokens.unsent s hs d hmem, fun w hw => Option.some.inj (hw.symm.trans hd.flying)⟩
    · rw [hs']
      nofun
  · refine ⟨?_, h.balanced hL.balanced, htokens, fun s' hs' sent hsent token v hv => ?_,
      fun hnone hb sent hsent token v hv => ?_⟩
    · rw [hlog, List.length_append]
      exact Nat.le_add_right_of_le hL.start
    · have hold : sent ∈ L.log.drop n := by
        rw [hdrop hlog] at hsent
        exact (List.mem_append.mp hsent).resolve_right fun hx => hnew sent hx token v hv
      rcases h.session_rel (Session.countsOn_opRel.mono hpolls) hs' with
        -- the session lived before the step, or the step created it
        ⟨s, hs, hcount⟩ | ⟨hnone, ⟨preamble, state, strategy, hcreate⟩, -⟩
      · obtain ⟨hlt, hfly⟩ := hL.issued s hs sent hold token v hv
        exact ⟨lt_of_lt_of_le hlt hcount.nextHandle_le, fun w hw => hfly w (hcount.flight token hlt w hw)⟩
      · exact absurd hv (hL.unborn hnone ⟨_, hcreate.creates⟩ sent hold token v)
    · rw [hdrop hlog] at hsent
      have hold : sent ∈ L.log.drop n :=
        (List.mem_append.mp hsent).resolve_right fun hx => hnew sent hx token v hv
      refine hL.unborn ?_ hb sent hold token v hv
      exact (h.ends hnone).resolve_right fun hsweeps => hb.elim (hdies hsweeps)

end Ledgers

/-! ## Results over a run -/

/-- The input is a send result. -/
def Input.isResult : Input RsStrategy → Bool
  | .event (.chunkSendResult ..) => true
  | _ => false

namespace Engine

section Runs

variable [Crates] {e : Engine RsStrategy Wire} {inputs : List (Input RsStrategy)}
  {i : Input RsStrategy} {k : SessionKey} {src : Nat → Nat} {n t : Nat}

omit [Crates] in
/-- The flight that the input resolves: `chunk_sent` is called for it. -/
def resolves (e : Engine RsStrategy Wire) : Input RsStrategy → Option Dispatch
  | .event (.chunkSendResult _ c m token _) =>
    if (c, m, token) ∈ e.pendingSends then
      (e.session? c m).bind fun s => s.strategy.inFlight[token]?.map fun v => ((c, m), token, v)
    else
      none
  | _ => none

/-- A send result names the peer and the token of the dispatch that was accepted as message `j`. -/
def ReportsAt (e : Engine RsStrategy Wire) (j : Nat) : Input RsStrategy → Prop
  | .event (.chunkSendResult peer c m token _) =>
    ∃ d ∈ e.net.log[j]?.bind Sent.dispatch?, d.1 = (c, m) ∧ d.2.1 = token ∧ d.2.2.1 = peer
  | _ => True

instance (e : Engine RsStrategy Wire) (j : Nat) : DecidablePred (e.ReportsAt j) := fun i =>
  match i with
  | .event (.chunkSendResult peer c m token _) =>
    inferInstanceAs (Decidable (∃ d ∈ e.net.log[j]?.bind Sent.dispatch?,
      d.1 = (c, m) ∧ d.2.1 = token ∧ d.2.2.1 = peer))
  | .subscribe .. | .connect _ | .publish .. | .recv | .event (.handshake ..)
  | .event (.subscribe ..) | .event (.unsubscribe ..) | .event (.sessionOpen ..)
  | .event (.routingUpdate ..) | .event (.chunk ..) | .event (.peerDisconnected _)
  | .event (.peerConnected _) | .event (.peerReconstructed ..) | .event (.sessionClosed ..) =>
    .isTrue trivial

/-- The transport reports each accepted chunk at most once, with its own peer and token: input `t`
reports message `src t`. -/
structure Reports (e : Engine RsStrategy Wire) (inputs : List (Input RsStrategy)) (src : Nat → Nat) :
    Prop where
  named : ∀ t (ht : t < inputs.length), (e.run (inputs.take t)).ReportsAt (src t) inputs[t]
  once : ∀ t (ht : t < inputs.length) t' (ht' : t' < inputs.length),
    inputs[t].isResult → inputs[t'].isResult → src t = src t' → t = t'

/-- Message `j` was submitted in the life that the session of `k` is in before input `t`: whenever the
session did not exist, it was still to come. -/
def SinceBirth (e : Engine RsStrategy Wire) (inputs : List (Input RsStrategy)) (k : SessionKey)
    (j t : Nat) : Prop :=
  ∀ n ≤ t, (e.run (inputs.take n)).session? k.1 k.2 = none → (e.run (inputs.take n)).net.log.length ≤ j

/-- Whatever flight a result resolves, the session it belongs to is the one whose dispatch is
reported. -/
def Timely (e : Engine RsStrategy Wire) (inputs : List (Input RsStrategy)) (src : Nat → Nat) : Prop :=
  ∀ t (ht : t < inputs.length), ∀ d ∈ (e.run (inputs.take t)).resolves inputs[t],
    SinceBirth e inputs d.1 (src t) t

/-- Whatever flight a result resolves is the flight of the reported dispatch: of the same session, to
the same peer, of the same shard. -/
def ResolvesOwn (e : Engine RsStrategy Wire) (inputs : List (Input RsStrategy)) (src : Nat → Nat) :
    Prop :=
  ∀ t (ht : t < inputs.length), ∀ d ∈ (e.run (inputs.take t)).resolves inputs[t],
    (e.run (inputs.take t)).net.log[src t]?.bind Sent.dispatch? = some d
      ∧ SinceBirth e inputs d.1 (src t) t

theorem beforeDecode_relayFactories (hi : i.Valid) (he : e.RelayFactories) :
    (e.beforeDecode i).2.RelayFactories :=
  (beforeDecode_acts (D := Terms.any) i e fun _ _ => trivial).induct
    (fun hact he => hact.relayFactories (hostsRelays_of_valid hi) he) he

/-- A step within a life. -/
theorem step_inLife (hi : i.Valid) (he : e.RelayFactories) (hpolls : e.StepPolls Session.Unwrapped i)
    (h : (e.ledger k).InLife n i k) : ((e.step i).2.ledger k).InLife n .recv k := by
  have hbefore := (beforeDecode_ledger (A := ⟨Session.Unwrapped, True, True, True⟩) i e k
    (fun _ => ⟨hi, he⟩) hpolls).induct
    (fun hstep hL => hstep.inLife (fun _ => id) False.elim hL) h
  exact (afterDecode_ledger_of (A := ⟨Session.Unwrapped, True, True, True⟩) trivial trivial i e k
    fun _ => beforeDecode_relayFactories hi he).induct
    (fun hstep hL => hstep.inLife (fun _ => id) (fun _ _ => id) hL) hbefore.settled

/-- As long as the session lives, its life goes on. -/
theorem run_inLife (hvalid : ∀ i ∈ inputs, i.Valid) (he : e.RelayFactories)
    (hunwrapped : e.EachStep (StepPolls Session.Unwrapped) inputs)
    (hbalanced : ∀ l, ((e.run l).ledger k).Balanced) (ht : t ≤ inputs.length)
    (hnone : (e.run (inputs.take n)).session? k.1 k.2 = none) (hn : n ≤ t)
    (hlive : ∀ x, n < x → x ≤ t → ((e.run (inputs.take x)).session? k.1 k.2).isSome)
    (i : Input RsStrategy) :
    ((e.run (inputs.take t)).ledger k).InLife (e.run (inputs.take n)).net.log.length i k := by
  induction t, hn using Nat.le_induction generalizing i with
  | base => exact .begin (hbalanced _) hnone
  | succ t hn ih =>
    have hfactories : (e.run (inputs.take t)).RelayFactories :=
      run_induct (P := RelayFactories) (fun e j hj he => he.step (hvalid j (List.mem_of_mem_take hj))) he
    have hstep := step_inLife (k := k) (hvalid _ (List.getElem_mem ht)) hfactories
      (hunwrapped.get ht) (ih (Nat.le_of_succ_le ht)
        (fun x hx hxt => hlive x hx (Nat.le_succ_of_le hxt)) inputs[t])
    rw [← run_take_succ e ht] at hstep
    exact hstep.next (hlive (t + 1) (Nat.lt_succ_of_le hn) (Nat.le_refl _))

omit [Crates] in
/-- A session that lives was born: there is a last moment at which it did not exist. -/
theorem exists_birth [Crates] (hnone : (e.run []).session? k.1 k.2 = none) (inputs : List (Input RsStrategy))
    (t : Nat) :
    ∃ n ≤ t, (e.run (inputs.take n)).session? k.1 k.2 = none
      ∧ ∀ x, n < x → x ≤ t → ((e.run (inputs.take x)).session? k.1 k.2).isSome := by
  induction t with
  | zero => exact ⟨0, Nat.le_refl _, by rwa [List.take_zero], fun x hx hx' => by omega⟩
  | succ t ih =>
    cases hs : (e.run (inputs.take (t + 1))).session? k.1 k.2 with
    | none => exact ⟨t + 1, Nat.le_refl _, hs, fun x hx hx' => by omega⟩
    | some s =>
      obtain ⟨n, hn, hborn, hlive⟩ := ih
      refine ⟨n, Nat.le_succ_of_le hn, hborn, fun x hx hxt => ?_⟩
      rcases Nat.le_succ_iff.mp hxt with hxt | rfl
      · exact hlive x hx hxt
      · rw [hs]
        rfl

omit [Crates] in
/-- What an input resolves: the dispatch of its handle, if that is pending and in flight. -/
theorem resolves_eq_some {d : Dispatch} (h : e.resolves i = some d) :
    ∃ peer ok, i = .event (.chunkSendResult peer d.1.1 d.1.2 d.2.1 ok)
      ∧ (d.1.1, d.1.2, d.2.1) ∈ e.pendingSends
      ∧ ∃ s, e.session? d.1.1 d.1.2 = some s ∧ s.strategy.inFlight[d.2.1]? = some d.2.2 := by
  unfold resolves at h
  split at h
  case h_1 peer c m token ok =>
    split at h
    case isTrue hpending =>
      obtain ⟨s, hs, hd⟩ := Option.bind_eq_some_iff.mp h
      obtain ⟨v, hv, rfl⟩ := Option.map_eq_some_iff.mp hd
      exact ⟨peer, ok, rfl, hpending, s, hs, hv⟩
    case isFalse => cases h
  case h_2 => cases h

/-- A result that comes in during the life of its dispatch resolves it. -/
theorem Timely.resolvesOwn {localPeer : PeerId} {net : Wire} {delivered : Sink} {config : EngineConfig}
    {clock : Clock} (hvalid : ∀ i ∈ inputs, i.Valid)
    (hreports : (withConfig localPeer net delivered config clock).Reports inputs src)
    (hunwrapped : (withConfig localPeer net delivered config clock).EachStep
      (StepPolls Session.Unwrapped) inputs)
    (h : (withConfig localPeer net delivered config clock).Timely inputs src) :
    (withConfig localPeer net delivered config clock).ResolvesOwn inputs src := by
  refine fun t ht d hd => ⟨?_, h t ht d hd⟩
  have htimely := h t ht d hd
  have hnamed := hreports.named t ht
  obtain ⟨k, token, v⟩ := d
  obtain ⟨peer, ok, hi, -, s, hs, hfly⟩ := resolves_eq_some hd
  obtain ⟨n, hn, hborn, hlive⟩ := exists_birth (k := k)
    (e := withConfig localPeer net delivered config clock) (by simp [run, withConfig, session?]) inputs t
  have hlife := run_inLife hvalid (relayFactories_withConfig _ _ _ _ _) hunwrapped
    (fun l => run_balanced localPeer net delivered config clock l k) (Nat.le_of_lt ht) hborn hn hlive .recv
  rw [hi] at hnamed
  obtain ⟨⟨k', token', v'⟩, hd', hkey, htoken, -⟩ := hnamed
  obtain rfl : k' = k := hkey
  obtain rfl : token' = token := htoken
  obtain ⟨sent, hsent, hdispatch⟩ := Option.bind_eq_some_iff.mp hd'
  have hissued := hlife.issued_at hs hsent (htimely n hn hborn) hdispatch
  rw [hd', hissued.2 v hfly]

/-- **A result resolves its own dispatch exactly if it comes in during the life of the dispatch**, as
long as no handle counter wraps. -/
theorem run_resolvesOwn_iff (localPeer : PeerId) (net : Wire) (delivered : Sink) (config : EngineConfig)
    (clock : Clock) (inputs : List (Input RsStrategy)) (src : Nat → Nat)
    (hvalid : ∀ i ∈ inputs, i.Valid)
    (hreports : (withConfig localPeer net delivered config clock).Reports inputs src)
    (hunwrapped : (withConfig localPeer net delivered config clock).EachStep
      (StepPolls Session.Unwrapped) inputs) :
    (withConfig localPeer net delivered config clock).ResolvesOwn inputs src
      ↔ (withConfig localPeer net delivered config clock).Timely inputs src :=
  ⟨fun h t ht d hd => (h t ht d hd).2, Timely.resolvesOwn hvalid hreports hunwrapped⟩

end Runs

section OneShard

attribute [local instance] oneShard

instance (e : Engine RsStrategy Wire) (inputs : List (Input RsStrategy)) (k : SessionKey) (j t : Nat) :
    Decidable (e.SinceBirth inputs k j t) :=
  inferInstanceAs (Decidable (∀ n ≤ t, (e.run (inputs.take n)).session? k.1 k.2 = none →
    (e.run (inputs.take n)).net.log.length ≤ j))

instance (e : Engine RsStrategy Wire) (inputs : List (Input RsStrategy)) (src : Nat → Nat) :
    Decidable (e.Timely inputs src) :=
  inferInstanceAs (Decidable (∀ t (ht : t < inputs.length),
    ∀ d ∈ (e.run (inputs.take t)).resolves inputs[t], e.SinceBirth inputs d.1 (src t) t))

instance (e : Engine RsStrategy Wire) (inputs : List (Input RsStrategy)) (src : Nat → Nat) :
    Decidable (e.Reports inputs src) :=
  decidable_of_iff
    ((∀ t (ht : t < inputs.length), (e.run (inputs.take t)).ReportsAt (src t) inputs[t])
      ∧ ∀ t (ht : t < inputs.length) t' (ht' : t' < inputs.length),
        inputs[t].isResult → inputs[t'].isResult → src t = src t' → t = t')
    ⟨fun h => ⟨h.1, h.2⟩, fun h => ⟨h.named, h.once⟩⟩

/-- The acknowledged shard is the dispatched one. -/
theorem run_resolvesOwn_done :
    (∀ i ∈ publishUntilDone, i.Valid)
    ∧ (nodeTicking second).Reports publishUntilDone (fun _ => 2)
    ∧ (nodeTicking second).EachStep (StepPolls Session.Unwrapped) publishUntilDone
    ∧ (nodeTicking second).ResolvesOwn publishUntilDone (fun _ => 2) := by
  have hreports : (nodeTicking second).Reports publishUntilDone (fun _ => 2) := by decide +kernel
  have hpolls : (nodeTicking second).EachStep (StepPolls Session.Unwrapped) publishUntilDone := by
    decide +kernel
  have htimely : (nodeTicking second).Timely publishUntilDone (fun _ => 2) := by decide +kernel
  refine ⟨publishUntilDone_valid, hreports, hpolls, ?_⟩
  exact (run_resolvesOwn_iff 0 ⟨fun _ _ => .ok (), []⟩ ⟨8, [], false⟩ {} ⟨fun n => n * second, 0⟩
    publishUntilDone (fun _ => 2) publishUntilDone_valid hreports hpolls).mpr htimely

/-- The late outcome of the first life resolves the flight to another peer in the second. -/
theorem run_not_resolvesOwn :
    (∀ i ∈ publishAgain, i.Valid)
    ∧ (nodeTicking (200 * second)).Reports publishAgain (fun _ => 2)
    ∧ ¬ (nodeTicking (200 * second)).ResolvesOwn publishAgain (fun _ => 2) := by
  refine ⟨publishAgain_valid, by decide +kernel, fun h => ?_⟩
  have hresolves : ((nodeTicking (200 * second)).run (publishAgain.take 8)).resolves
      (.event (.chunkSendResult 1 "c" "m" 0 true)) = some (("c", "m"), 0, 2, 0) := by
    decide +kernel
  have hown := (h 8 (by decide) _ hresolves).1
  have hsent : ((nodeTicking (200 * second)).run (publishAgain.take 8)).net.log[2]?.bind Sent.dispatch?
      = some (("c", "m"), 0, 1, 0) := by
    decide +kernel
  exact absurd (hown.symm.trans hsent) (by decide)

end OneShard

end Engine

end Ethp2p
