/-
# Ethp2p.Strategy.Rs.Runs — sequences of strategy operations.

A session drives its strategy through the operations of the `Strategy` trait.  `StrategyOp` lists
them, `runOps` applies a sequence of them, and `EachOp P` says that every operation satisfies `P` in
the state it is applied to.
-/
import Ethp2p.Strategy.Rs.StateSpec
import Ethp2p.Strategy.Rs.PlannerSpec

namespace Ethp2p

/-- One operation of the `Strategy` trait. -/
inductive StrategyOp where
  | take (idx : Nat) (data : Bytes)
  | attach (peer : PeerId)
  | detach (peer : PeerId) (completed : Bool)
  | routing (peer : PeerId) (update : BitMap)
  | pollChunks
  | pollRouting (force : Bool)
  | sent (peer : PeerId) (handle : DispatchHandle) (ok : Bool)

namespace RsStrategy

/-! ## Fresh strategies -/

/-- The strategy was just built: nobody is attached, nothing is in flight, nothing is allocated. -/
def Fresh (s : RsStrategy) : Prop :=
  ∃ config preamble chunks n seed mode,
    s = withParts config preamble chunks (EmitPlanner.new n seed mode)

/-- Built by one of the two constructors. -/
def Built [Crates] (s : RsStrategy) : Prop :=
  (∃ payload config seed, newOriginWithSeed payload config seed = .ok s)
    ∨ ∃ preamble config seed, newRelayWithSeed preamble config seed = .ok s

theorem newOriginWithSeed_fresh [Crates] {payload : Bytes} {config : RsConfig} {seed : UInt64}
    {s : RsStrategy} (h : newOriginWithSeed payload config seed = .ok s) : s.Fresh := by
  unfold newOriginWithSeed at h
  split at h
  · cases h
  · exact ⟨_, _, _, _, _, _, (Except.ok.inj h).symm⟩

theorem newRelayWithSeed_fresh {preamble : Preamble} {config : RsConfig} {seed : UInt64}
    {s : RsStrategy} (h : newRelayWithSeed preamble config seed = .ok s) : s.Fresh := by
  unfold newRelayWithSeed at h
  split at h
  · cases h
  · exact ⟨_, _, _, _, _, _, (Except.ok.inj h).symm⟩

theorem Built.fresh [Crates] {s : RsStrategy} (h : s.Built) : s.Fresh := by
  rcases h with ⟨payload, config, seed, h⟩ | ⟨preamble, config, seed, h⟩
  · exact newOriginWithSeed_fresh h
  · exact newRelayWithSeed_fresh h

/-! ## Runs -/

variable [Crates]

/-- Apply one operation. -/
def applyOp (s : RsStrategy) : StrategyOp → RsStrategy
  | .take idx data => (s.takeChunk idx data).2
  | .attach peer => s.attachPeer peer
  | .detach peer completed => s.detachPeer peer completed
  | .routing peer update => (s.routingUpdate peer update).2
  | .pollChunks => s.pollChunks.2
  | .pollRouting force => (s.pollRouting force).2
  | .sent peer handle ok => s.chunkSent peer handle ok

/-- Apply operations in turn. -/
def runOps (s : RsStrategy) (ops : List StrategyOp) : RsStrategy := ops.foldl applyOp s

theorem runOps_append (s : RsStrategy) (ops ops' : List StrategyOp) :
    s.runOps (ops ++ ops') = (s.runOps ops).runOps ops' := List.foldl_append

/-- Every operation satisfies `P` in the state it is applied to. -/
def EachOp (P : RsStrategy → StrategyOp → Prop) : RsStrategy → List StrategyOp → Prop
  | _, [] => True
  | s, op :: ops => P s op ∧ EachOp P (s.applyOp op) ops

/-- What every operation that satisfies `P` preserves holds after a run all of whose operations
do. -/
theorem EachOp.run {P : RsStrategy → StrategyOp → Prop} {Q : RsStrategy → Prop}
    {ops : List StrategyOp} {s : RsStrategy} (h : EachOp P s ops)
    (hop : ∀ s op, P s op → Q s → Q (s.applyOp op)) (hs : Q s) : Q (s.runOps ops) := by
  induction ops generalizing s with
  | nil => exact hs
  | cons op ops ih => exact ih h.2 (hop s op h.1 hs)

theorem EachOp.and {P Q : RsStrategy → StrategyOp → Prop} {ops : List StrategyOp} {s : RsStrategy}
    (hP : EachOp P s ops) (hQ : EachOp Q s ops) : EachOp (fun s op => P s op ∧ Q s op) s ops := by
  induction ops generalizing s with
  | nil => trivial
  | cons op ops ih => exact ⟨⟨hP.1, hQ.1⟩, ih hP.2 hQ.2⟩

/-- Whether every operation satisfies `P` can be computed. -/
def EachOp.decide {P : RsStrategy → StrategyOp → Prop} [∀ s op, Decidable (P s op)] :
    ∀ (ops : List StrategyOp) (s : RsStrategy), Decidable (EachOp P s ops)
  | [], _ => .isTrue trivial
  | op :: ops, s =>
    have := EachOp.decide (P := P) ops (s.applyOp op)
    inferInstanceAs (Decidable (P s op ∧ EachOp P (s.applyOp op) ops))

instance {P : RsStrategy → StrategyOp → Prop} [∀ s op, Decidable (P s op)] (s : RsStrategy)
    (ops : List StrategyOp) : Decidable (EachOp P s ops) :=
  EachOp.decide ops s

/-- Each callback names the peer of its own dispatch. -/
def OwnPeer (s : RsStrategy) : StrategyOp → Prop
  | .sent peer handle _ => ∀ v ∈ s.inFlight[handle]?, v.1 = peer
  | _ => True

omit [Crates] in
instance (s : RsStrategy) (op : StrategyOp) : Decidable (s.OwnPeer op) :=
  match op with
  | .sent peer handle _ => inferInstanceAs (Decidable (∀ v ∈ s.inFlight[handle]?, v.1 = peer))
  | .take .. | .attach .. | .detach .. | .routing .. | .pollRouting .. | .pollChunks =>
    .isTrue trivial

end RsStrategy

end Ethp2p
