/-
# Ethp2p.Sim.Runner — scenarios of several engines on one simulated transport (`ethp2p-sim/src/runner.rs`).

The runner owns the only loop: pop the earliest entry of the queue and, if it is a delivery, step the
destination's engine once.  The engines share the simulation's state; `perform` lends it to an engine for
one call and takes it back.  Virtual time stands still during a call, so an engine's clock is constant
then.

`stepped` is not part of the source: it lists the events the engines were stepped with, for the
statements.
-/
import Ethp2p.Sim.State
import Ethp2p.Engine.Run

namespace Ethp2p

/-- Per-engine view of the simulation. -/
structure SimNetEndpoint (R : Type) where
  peerId : PeerId
  shared : SimState R

instance {R : Type} [Rand R] : Net (SimNetEndpoint R) where
  send net msg :=
    let (answer, shared) := net.shared.submitSend net.peerId msg
    (answer, { net with shared })

/-- The simulation's clock during one call of an engine. -/
def SimState.clock {R : Type} (s : SimState R) : Clock := ⟨fun _ => s.wallNow, 0⟩

/-- Errors surfaced while driving a scenario. -/
inductive SimError where
  | engine (peer : PeerId) (error : EngineError)
  | engineClosed (peer : PeerId)
  | maxStepsExceeded (max : Nat)
  | unknownPeer (peer : PeerId)
  | encode (error : EncodeError)
deriving DecidableEq, Repr

/-- Capacity of each engine's delivery sink. -/
def deliverySinkCapacity : Nat := 16

/-- Mix a peer into the scenario seed. -/
def deriveSeed (seed : UInt64) (peer : PeerId) : UInt64 := seed ^^^ (peer * 0x9E3779B97F4A7C15)

/-- Deterministic multi-engine scenario driver. -/
structure SimRunner (R : Type) where
  hub : SimState R
  seed : UInt64
  engines : BTreeMap PeerId (Engine RsStrategy (SimNetEndpoint R))
  stepped : List (PeerId × NetEvent)

namespace SimRunner

variable [Crates] {R : Type} [Rand R]

omit [Crates] [Rand R] in
/-- One engine per peer, on one simulation governed by `plan`. -/
def new (peers : List PeerId) (plan : FaultPlan R) (simStart : Instant) : SimRunner R :=
  let hub := peers.foldl SimState.endpoint (SimState.new plan simStart)
  { hub := hub
    seed := plan.seed
    engines := peers.foldl (fun engines peer => engines.insert peer
      (Engine.withConfig peer ⟨peer, hub⟩ ⟨deliverySinkCapacity, [], false⟩ {} hub.clock)) ∅
    stepped := [] }

/-- Have an engine process one input on the shared simulation. -/
def perform (r : SimRunner R) (peer : PeerId) (engine : Engine RsStrategy (SimNetEndpoint R))
    (i : Input RsStrategy) : Except EngineError Unit × SimRunner R :=
  let net := { engine.net with shared := r.hub }
  let (result, engine) := { engine with net, clock := r.hub.clock }.step i
  (result, { r with hub := engine.net.shared, engines := r.engines.insert peer engine })

/-- Have engines process inputs in turn, up to the first error. -/
def performEach : List (PeerId × Input RsStrategy) → SimRunner R → Except SimError Unit × SimRunner R
  | [], r => (.ok (), r)
  | (peer, i) :: calls, r =>
    match r.engines[peer]? with
    | none => performEach calls r
    | some engine =>
      match r.perform peer engine i with
      | (.error err, r) => (.error (.engine peer err), r)
      | (.ok (), r) => performEach calls r

/-- Subscribe every engine to a channel, with relay factories seeded from the scenario seed. -/
def subscribeAll (r : SimRunner R) (channel : ChannelId) (config : RsConfig) :
    Except SimError Unit × SimRunner R :=
  performEach (r.engines.keys.map fun peer =>
    (peer, .subscribe channel (rsRelayFactorySeeded config (deriveSeed r.seed peer)))) r

/-- Connect every ordered pair of peers. -/
def connectFullMesh (r : SimRunner R) : Except SimError Unit × SimRunner R :=
  performEach (r.engines.keys.flatMap fun peer =>
    (r.engines.keys.filter (· ≠ peer)).map fun other => (peer, .connect other)) r

/-- Encode a payload, build the origin strategy and publish it from an engine. -/
def publish (r : SimRunner R) (origin : PeerId) (channel : ChannelId) (messageId : MessageId)
    (payload : Bytes) (config : RsConfig) : Except SimError Unit × SimRunner R :=
  match encode payload config with
  | .error err => (.error (.encode err), r)
  | .ok (preamble, _) =>
    let preambleBytes := Crates.preambleEncode preamble
    match RsStrategy.newOriginWithSeed payload config (deriveSeed r.seed origin) with
    | .error err => (.error (.encode err), r)
    | .ok strategy =>
      match r.engines[origin]? with
      | none => (.error (.unknownPeer origin), r)
      | some engine =>
        let (result, r) := r.perform origin engine (.publish channel messageId strategy preambleBytes)
        (result.mapError (.engine origin), r)

/-- Step the destination's engine of a popped delivery.  A step waits for the engine's next event: the
answer is `none` if there is none and never will be. -/
def serve (r : SimRunner R) : PumpStep → Option (Except SimError Unit) × SimRunner R
  | .woke => (some (.ok ()), r)
  | .deliveredTo peer =>
    match r.engines[peer]? with
    | none => (some (.ok ()), r)
    | some engine =>
      let r := { r with hub := r.hub.recordEngineStep peer }
      match r.hub.inboxes[peer]? with
      | none => (some (.error (.engineClosed peer)), r)
      | some inbox =>
        match inbox.recv with
        | none => (none, r)
        | some (event, inbox) =>
          let r := { r with
            hub := { r.hub with inboxes := r.hub.inboxes.insert peer inbox }
            stepped := r.stepped ++ [(peer, event)] }
          (some (.ok ()), (r.perform peer engine (.event event)).2)

/-- Pop entries and serve them until the queue is empty, at most `budget` of them. -/
def quiesce (max : Nat) : Nat → Nat → SimRunner R → Option (Except SimError Nat) × SimRunner R
  | budget, steps, r =>
    match r.hub.popNext with
    | none => (some (.ok steps), r)
    | some (step, hub) =>
      let r := { r with hub }
      match budget with
      | 0 => (some (.error (.maxStepsExceeded max)), r)
      | budget + 1 =>
        match r.serve step with
        | (some (.ok ()), r) => quiesce max budget (steps + 1) r
        | (some (.error err), r) => (some (.error err), r)
        | (none, r) => (none, r)

/-- Drive the simulation until its queue is empty, stepping each destination's engine as its deliveries
arrive. -/
def runToQuiescence (r : SimRunner R) (maxSteps : Nat) : Option (Except SimError Nat) × SimRunner R :=
  quiesce maxSteps maxSteps 0 r

/-- Drain everything an engine has delivered so far. -/
def takeDeliveries (r : SimRunner R) (peer : PeerId) : List DeliveredMessage × SimRunner R :=
  match r.engines[peer]? with
  | none => ([], r)
  | some engine =>
    (engine.delivered.queue, { r with
      engines := r.engines.insert peer
        { engine with delivered := { engine.delivered with queue := [] } } })

/-! ## Scenarios -/

/-- One call on the runner, or on its hub. -/
inductive Op where
  | subscribeAll (channel : ChannelId) (config : RsConfig)
  | connectFullMesh
  | publish (origin : PeerId) (channel : ChannelId) (messageId : MessageId) (payload : Bytes)
      (config : RsConfig)
  | takeDeliveries (peer : PeerId)
  | pump
  | advanceTo (target : Duration)
  | runToQuiescence (maxSteps : Nat)

/-- The runner after one call. -/
def apply (r : SimRunner R) : Op → SimRunner R
  | .subscribeAll channel config => (r.subscribeAll channel config).2
  | .connectFullMesh => r.connectFullMesh.2
  | .publish origin channel messageId payload config =>
    (r.publish origin channel messageId payload config).2
  | .takeDeliveries peer => (r.takeDeliveries peer).2
  | .pump => { r with hub := (r.hub.popNext.map (·.2)).getD r.hub }
  | .advanceTo target => { r with hub := r.hub.advanceTo target }
  | .runToQuiescence maxSteps => (r.runToQuiescence maxSteps).2

/-- The runner after a scenario. -/
def run (r : SimRunner R) (ops : List Op) : SimRunner R := ops.foldl apply r

end SimRunner

end Ethp2p
