/-
# Ethp2p.Sim.Net — fault plans of the simulated transport (`ethp2p-sim/src/net.rs`, `trace.rs`).

A fault plan is a list of rules, each for one directed link.  `classify` runs a message through the rules
of its link in order: a drop rule ends the search, delays add up.

The predicates of a rule are closures that may remember the messages they were asked about, so their
answer is a function of these (`SendPredicate`).  The generator is a parameter (`Rand`): all that is used
of it is that it makes a draw and moves on.
-/
import Ethp2p.Runtime

namespace Ethp2p

/-! ## Randomness -/

/-- A seedable generator (`rand_chacha::ChaCha8Rng`). -/
class Rand (R : Type) where
  /-- `seed_from_u64`. -/
  seedFromU64 : UInt64 → R
  /-- `random::<f64>() < p`. -/
  randomBelow : R → Float → Bool × R
  /-- `random_range(0..=max)`. -/
  randomRange : R → Nat → Nat × R

/-! ## Traces -/

/-- Compact message classification for trace entries. -/
inductive MsgKind where
  | handshake
  | subscribe
  | unsubscribe
  | sessionOpen
  | routingUpdate
  | chunk (chunkId : Nat)
deriving DecidableEq, Repr

/-- Classify an outbound message; the local command has no kind. -/
def MsgKind.of : NetSend → Option MsgKind
  | .handshake .. => some .handshake
  | .subscribe .. => some .subscribe
  | .unsubscribe .. => some .unsubscribe
  | .sessionOpen .. => some .sessionOpen
  | .routingUpdate .. => some .routingUpdate
  | .chunk _ _ _ chunkId _ _ => some (.chunk chunkId)
  | .sessionReconstructed .. => none

/-- Which kind of fault rule discarded a message. -/
inductive DropReason where
  | rule
  | partitioned
  | random
deriving DecidableEq, Repr

/-- Outcome the fault plan assigned to a send. -/
inductive Disposition where
  | delivered (deliverAt : Duration)
  | dropped (reason : DropReason)
deriving DecidableEq, Repr

/-- What a trace entry records. -/
inductive TraceKind where
  | send (src dst : PeerId) (msg : MsgKind) (disposition : Disposition)
  | engineStep (peer : PeerId)
deriving DecidableEq, Repr

/-- One recorded simulation event. -/
structure TraceEntry where
  time : Duration
  seq : Nat
  kind : TraceKind
deriving DecidableEq, Repr

/-! ## Messages and events -/

/-- The sender of an event, from the destination's point of view. -/
def NetEvent.sender : NetEvent → PeerId
  | .handshake peer .. | .subscribe peer .. | .unsubscribe peer .. | .sessionOpen peer ..
  | .routingUpdate peer .. | .chunk peer .. | .peerDisconnected peer | .peerConnected peer
  | .chunkSendResult peer .. | .peerReconstructed peer .. | .sessionClosed peer .. => peer

/-- Map an outbound message to the event its destination sees; the local command has none. -/
def intoEvent (src : PeerId) : NetSend → Option NetEvent
  | .handshake _ version channels peerId => some (.handshake src version channels peerId)
  | .subscribe _ channel => some (.subscribe src channel)
  | .unsubscribe _ channel => some (.unsubscribe src channel)
  | .sessionOpen _ channel messageId preamble initialUpdate =>
    some (.sessionOpen src channel messageId preamble initialUpdate)
  | .routingUpdate _ channel messageId payload => some (.routingUpdate src channel messageId payload)
  | .chunk _ channel messageId chunkId payload _ => some (.chunk src channel messageId chunkId payload)
  | .sessionReconstructed .. => none

theorem sender_intoEvent {src : PeerId} {msg : NetSend} {event : NetEvent}
    (h : intoEvent src msg = some event) : event.sender = src := by
  cases msg <;> simp only [intoEvent, Option.some.injEq, reduceCtorEq] at h <;> subst h <;> rfl

/-! ## Fault plans -/

/-- A closure over messages: its answer may depend on the messages it was called with before. -/
structure SendPredicate where
  answer : List NetSend → NetSend → Bool
  calls : List NetSend := []

/-- Call the closure. -/
def SendPredicate.call (pred : SendPredicate) (msg : NetSend) : Bool × SendPredicate :=
  (pred.answer pred.calls msg, { pred with calls := pred.calls ++ [msg] })

/-- What a rule does with a message of its link. -/
inductive FaultAction where
  | dropIf (pred : SendPredicate)
  | dropWithProbability (probability : Float)
  | delayIf (pred : SendPredicate) (delay : Duration)
  | delayJitter (max : Duration)
  | partition (start until_ : Duration)

/-- A rule for one directed link. -/
structure FaultRule where
  src : PeerId
  dst : PeerId
  action : FaultAction

/-- The rule is for this link. -/
def FaultRule.Matches (rule : FaultRule) (src dst : PeerId) : Prop := rule.src = src ∧ rule.dst = dst

instance (rule : FaultRule) (src dst : PeerId) : Decidable (rule.Matches src dst) :=
  inferInstanceAs (Decidable (_ ∧ _))

/-- Fault rules in insertion order, and the scenario's generator. -/
structure FaultPlan (R : Type) where
  seed : UInt64
  rules : List FaultRule
  rng : R

/-- Outcome of classifying one message. -/
inductive Classification where
  | deliver (delay : Duration)
  | drop (reason : DropReason)
deriving DecidableEq, Repr

namespace FaultPlan

variable {R : Type} [Rand R]

/-- A plan with no rules. -/
def new (seed : UInt64) : FaultPlan R := ⟨seed, [], Rand.seedFromU64 seed⟩

/-- Add a rule for a link. -/
def addRule (plan : FaultPlan R) (src dst : PeerId) (action : FaultAction) : FaultPlan R :=
  { plan with rules := plan.rules ++ [⟨src, dst, action⟩] }

/-- Drop everything in both directions between `a` and `b` within a window. -/
def partition (plan : FaultPlan R) (a b : PeerId) (start until_ : Duration) : FaultPlan R :=
  (plan.addRule a b (.partition start until_)).addRule b a (.partition start until_)

/-- What one action does: a reason to drop the message, or a delay; and the action and the generator
afterwards. -/
def act (action : FaultAction) (rng : R) (now : Duration) (msg : NetSend) :
    Classification × FaultAction × R :=
  match action with
  | .partition start until_ =>
    (if start ≤ now ∧ now < until_ then .drop .partitioned else .deliver 0, action, rng)
  | .dropIf pred =>
    let (hit, pred) := pred.call msg
    (if hit then .drop .rule else .deliver 0, .dropIf pred, rng)
  | .dropWithProbability p =>
    let (hit, rng) := Rand.randomBelow rng p
    (if hit then .drop .random else .deliver 0, action, rng)
  | .delayIf pred delay =>
    let (hit, pred) := pred.call msg
    (if hit then .deliver delay else .deliver 0, .delayIf pred delay, rng)
  | .delayJitter max =>
    let (delay, rng) := Rand.randomRange rng (min max (2 ^ 64 - 1))
    (.deliver delay, action, rng)

/-- Run a message through the rules from a given one on, with the delay gathered so far. -/
def classifyFrom (src dst : PeerId) (now : Duration) (msg : NetSend) :
    List FaultRule → R → Duration → Classification × List FaultRule × R
  | [], rng, delay => (.deliver delay, [], rng)
  | rule :: rules, rng, delay =>
    if rule.Matches src dst then
      match act rule.action rng now msg with
      | (.drop reason, action, rng) => (.drop reason, { rule with action } :: rules, rng)
      | (.deliver more, action, rng) =>
        let (result, rules, rng) := classifyFrom src dst now msg rules rng (delay + more)
        (result, { rule with action } :: rules, rng)
    else
      let (result, rules, rng) := classifyFrom src dst now msg rules rng delay
      (result, rule :: rules, rng)

/-- Decide what becomes of a message. -/
def classify (plan : FaultPlan R) (src dst : PeerId) (now : Duration) (msg : NetSend) :
    Classification × FaultPlan R :=
  let (result, rules, rng) := classifyFrom src dst now msg plan.rules plan.rng 0
  (result, { plan with rules, rng })

/-- No rule is for this link. -/
def Spares (plan : FaultPlan R) (src dst : PeerId) : Prop :=
  ∀ rule ∈ plan.rules, ¬ rule.Matches src dst

omit [Rand R] in
theorem new_spares [Rand R] (seed : UInt64) (src dst : PeerId) : (new seed : FaultPlan R).Spares src dst := by
  simp [Spares, new]

/-- Rules keep their links. -/
theorem classifyFrom_links (src dst : PeerId) (now : Duration) (msg : NetSend)
    (rules : List FaultRule) (rng : R) (delay : Duration) :
    (classifyFrom src dst now msg rules rng delay).2.1.map (fun rule => (rule.src, rule.dst))
      = rules.map fun rule => (rule.src, rule.dst) := by
  induction rules generalizing rng delay with
  | nil => rfl
  | cons rule rules ih =>
    unfold classifyFrom
    split
    · split
      · rfl
      · rw [List.map_cons, List.map_cons, ih]
    · rw [List.map_cons, List.map_cons, ih]

theorem Spares.classify {plan : FaultPlan R} {a b : PeerId} (h : plan.Spares a b) (src dst : PeerId)
    (now : Duration) (msg : NetSend) : (plan.classify src dst now msg).2.Spares a b := by
  intro rule hrule hmatch
  have hlink : (rule.src, rule.dst) ∈ plan.rules.map fun rule => (rule.src, rule.dst) := by
    rw [← classifyFrom_links src dst now msg plan.rules plan.rng 0]
    exact List.mem_map_of_mem (f := fun rule : FaultRule => (rule.src, rule.dst)) hrule
  obtain ⟨rule', hrule', hsame⟩ := List.mem_map.mp hlink
  obtain ⟨hsrc, hdst⟩ := Prod.mk.inj hsame
  exact h rule' hrule' ⟨hsrc.trans hmatch.1, hdst.trans hmatch.2⟩

/-- A message of a spared link is delivered at once. -/
theorem Spares.classify_eq {plan : FaultPlan R} {src dst : PeerId} (h : plan.Spares src dst)
    (now : Duration) (msg : NetSend) : (plan.classify src dst now msg).1 = .deliver 0 := by
  have hrules : ∀ (rules : List FaultRule) (rng : R), (∀ rule ∈ rules, ¬ rule.Matches src dst) →
      (classifyFrom src dst now msg rules rng 0).1 = .deliver 0 := by
    intro rules
    induction rules with
    | nil => exact fun _ _ => rfl
    | cons rule rules ih =>
      intro rng hspares
      unfold classifyFrom
      rw [if_neg (hspares rule List.mem_cons_self)]
      exact ih rng fun rule' hrule' => hspares rule' (List.mem_cons_of_mem rule hrule')
  exact hrules plan.rules plan.rng h

end FaultPlan

end Ethp2p
