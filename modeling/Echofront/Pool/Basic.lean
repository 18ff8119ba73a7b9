import Echofront.Pool.Backend
import Echofront.HashRing

/-!
# The upstream pool

`Pool` of `src/pool.rs`: its operations and the four ways to select a backend.
A method that takes `&mut self` and returns a value is a function to the value
and the new pool.

An index outside the pool panics in the source.  Here it changes nothing; the
runs of `Echofront.Pool.Run` take indexed operations in range only.
-/

namespace Echofront

/-- `Strategy`. -/
inductive Strategy where
  | roundRobin
  | weighted
  | leastConnections
  | consistentHash
deriving DecidableEq, Repr

/-- `Pool`. -/
structure Pool where
  name : String
  backends : List Backend
  strategy : Strategy
  health : HealthConfig
  rrCursor : Nat
  ring : ConsistentHashRing
  ringSignature : List Nat
  ewma : Option EwmaConfig
deriving DecidableEq

namespace Pool

def new (name : String) (strategy : Strategy) (health : HealthConfig) : Pool where
  name := name
  backends := []
  strategy := strategy
  health := health
  rrCursor := 0
  ring := .new 160
  ringSignature := []
  ewma := none

def setStrategy (p : Pool) (s : Strategy) : Pool := { p with strategy := s }

def addBackend (p : Pool) (b : Backend) : Pool :=
  { p with backends := p.backends ++ [b], ringSignature := [] }

def enableEwma (p : Pool) (cfg : EwmaConfig) : Pool := { p with ewma := some cfg }

/-- `self.backends[idx]`. -/
def backend (p : Pool) (idx : Nat) : Backend := p.backends.getD idx default

/-- An update of `self.backends[idx]`. -/
def modify (p : Pool) (idx : Nat) (f : Backend → Backend) : Pool :=
  { p with backends := p.backends.modify idx f }

/-- Whether a backend has enough samples to count in the pool mean. -/
def qualifies (cfg : EwmaConfig) (b : Backend) : Bool :=
  decide (cfg.minSamples ≤ b.ewmaSamples)

def ewmaMean (p : Pool) : Nat :=
  match p.ewma with
  | none => 0
  | some cfg =>
    let qualified := p.backends.filter (qualifies cfg)
    let sum := (qualified.map (fun b => b.latencyEwmaMilli.getD 0)).sum
    toU64 (sum / max qualified.length 1)

/-- The ejection line a poll of this pool uses. -/
def threshold (p : Pool) : Option Nat :=
  p.ewma.map (fun cfg => cfg.thresholdMilli p.ewmaMean)

def poll (p : Pool) (now : Nat) : Pool :=
  { p with backends := p.backends.map (Backend.poll p.ewma p.threshold now) }

def availableIndices (p : Pool) (now : Nat) (exclude : List Nat) : List Nat :=
  (List.range p.backends.length).filter
    (fun i => !exclude.contains i && (p.backend i).isAvailable now)

/-! ## Selection -/

def selectRoundRobin (p : Pool) (available : List Nat) : Nat × Pool :=
  (available.getD (p.rrCursor % available.length) 0,
    { p with rrCursor := wrappingAdd64 p.rrCursor 1 })

def weightedScore (p : Pool) (i : Nat) : Int :=
  ((p.backend i).weight : Int) * (p.backend i).rampPercent

/-- `self.backends[i].current_weight += x`, on exact integers.  `addWeightI64` is the sum
on an `i64`. -/
def addWeight (p : Pool) (i : Nat) (x : Int) : Pool :=
  p.modify i (fun w => { w with currentWeight := w.currentWeight + x })

/-- The better of the best so far and `i`.  A tie keeps the earlier one. -/
def heavier (p : Pool) (best : Option Nat) (i : Nat) : Option Nat :=
  match best with
  | none => some i
  | some b =>
    if (p.backend b).currentWeight < (p.backend i).currentWeight then some i
    else some b

/-- The locals of the loop of `select_weighted`, and the pool it updates. -/
structure WeightedLoop where
  best : Option Nat
  total : Int
  pool : Pool

/-- One turn of the loop of `select_weighted`. -/
def WeightedLoop.visit (s : WeightedLoop) (i : Nat) : WeightedLoop :=
  if (s.pool.backend i).weight = 0 then s
  else
    let score := s.pool.weightedScore i
    let pool := s.pool.addWeight i score
    { best := pool.heavier s.best i
      total := s.total + score
      pool := pool }

def selectWeighted (p : Pool) (available : List Nat) : Option Nat × Pool :=
  let s := available.foldl WeightedLoop.visit ⟨none, 0, p⟩
  match s.best with
  | none => (none, s.pool)
  | some b => (some b, s.pool.addWeight b (-s.total))

def selectLeastConn (p : Pool) (available : List Nat) : Nat :=
  available.foldl
    (fun best i =>
      if (p.backend i).inFlight < (p.backend best).inFlight then i else best)
    (available.headD 0)

/-- The members that `select_hash` builds the ring from. -/
def ringMembers (p : Pool) (available : List Nat) : List (Nat × String) :=
  available.map (fun i => (i, (p.backend i).name))

def selectHash (p : Pool) (available : List Nat) (key : Option String) : Nat × Pool :=
  match key with
  | none => p.selectRoundRobin available
  | some key =>
    let p :=
      if p.ringSignature ≠ available ∨ p.ring.isEmpty then
        { p with
          ring := p.ring.rebuild (p.ringMembers available)
          ringSignature := available }
      else p
    ((p.ring.lookup key).getD (available.headD 0), p)

def select (p : Pool) (now : Nat) (key : Option String) (exclude : List Nat) :
    Option Nat × Pool :=
  let available := p.availableIndices now exclude
  if available.isEmpty then (none, p)
  else
    match p.strategy with
    | .roundRobin =>
      let (chosen, p) := p.selectRoundRobin available
      (some chosen, p)
    | .weighted => p.selectWeighted available
    | .leastConnections => (some (p.selectLeastConn available), p)
    | .consistentHash =>
      let (chosen, p) := p.selectHash available key
      (some chosen, p)

/-! ## Calls, outcomes and probes -/

def begin (p : Pool) (idx : Nat) : Pool := p.modify idx Backend.begin

/-- `Pool::end`. -/
def endCall (p : Pool) (idx : Nat) : Pool := p.modify idx Backend.endCall

def recordSuccess (p : Pool) (idx now : Nat) : Pool :=
  p.modify idx (Backend.recordSuccess now)

def recordSuccessLatency (p : Pool) (idx now latencyMs : Nat) : Pool :=
  p.modify idx (Backend.recordSuccessLatency p.ewma now latencyMs)

def recordFailure (p : Pool) (idx now : Nat) : Pool :=
  p.modify idx (Backend.recordFailure p.health now)

/-- `probe i` is the reply of the upstream of backend `i` if it is probed. -/
def runHealthChecks (p : Pool) (now : Nat) (probe : Nat → Bool) : Pool :=
  { p with
    backends := p.backends.mapIdx
      (fun i b => b.runHealthCheck p.health now (probe i)) }

end Pool

end Echofront
