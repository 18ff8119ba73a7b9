import Echofront.Breaker
import Echofront.Ewma

/-!
# One backend

The per backend state of `src/pool.rs` and what each operation of the pool does
to one backend.  The upstream object behind a backend is not part of the state:
what it replies is an input of the operation that asks it.

`Backend.poll` is the body of the loop of `Pool::poll`, cut into its four
stages: the breaker, the reinstatement, the ramp and the latency evaluation.
-/

namespace Echofront

/-- `HealthConfig`. -/
structure HealthConfig where
  probeIntervalMs : Nat
  unhealthyProbeThreshold : Nat
  healthyProbeThreshold : Nat
  outlierConsecutiveFailures : Nat
  ejectionBaseMs : Nat
  startHealthy : Bool
deriving DecidableEq, Repr

/-- `HealthConfig::default`. -/
def HealthConfig.default : HealthConfig where
  probeIntervalMs := 1000
  unhealthyProbeThreshold := 2
  healthyProbeThreshold := 2
  outlierConsecutiveFailures := 5
  ejectionBaseMs := 5000
  startHealthy := true

/-- `Backend`, without its upstream. -/
structure Backend where
  name : String
  weight : Nat
  inFlight : Nat
  healthy : Bool
  probeFailures : Nat
  probeSuccesses : Nat
  lastProbe : Option Nat
  outlierFailures : Nat
  ejectedUntil : Option Nat
  ejections : Nat
  breaker : CircuitBreaker
  currentWeight : Int
  served : Nat
  latencyEwmaMilli : Option Nat
  ewmaSamples : Nat
  overSince : Option Nat
  overSinceSamples : Nat
  ewmaEjections : Nat
  rampPercent : Nat
  lastRampStep : Option Nat
deriving DecidableEq, Repr

namespace Backend

def new (name : String) (weight : Nat) (health : HealthConfig)
    (breakerCfg : BreakerConfig) : Backend where
  name := name
  weight := weight
  inFlight := 0
  healthy := health.startHealthy
  probeFailures := 0
  probeSuccesses := 0
  lastProbe := none
  outlierFailures := 0
  ejectedUntil := none
  ejections := 0
  breaker := .new breakerCfg
  currentWeight := 0
  served := 0
  latencyEwmaMilli := none
  ewmaSamples := 0
  overSince := none
  overSinceSamples := 0
  ewmaEjections := 0
  rampPercent := 100
  lastRampStep := none

instance : Inhabited Backend := ⟨new "" 0 .default .default⟩

/-- A backend that no pool has touched.  `in_flight` is a public field, so a
caller may set it before it adds the backend. -/
def Fresh (b : Backend) : Prop :=
  ∃ health breakerCfg,
    b = { new b.name b.weight health breakerCfg with inFlight := b.inFlight }

theorem fresh_new (name : String) (weight : Nat) (health : HealthConfig)
    (breakerCfg : BreakerConfig) : (new name weight health breakerCfg).Fresh :=
  ⟨health, breakerCfg, rfl⟩

def isEjected (b : Backend) (now : Nat) : Bool :=
  match b.ejectedUntil with
  | some until_ => decide (now < until_)
  | none => false

def isAvailable (b : Backend) (now : Nat) : Bool :=
  b.healthy && !b.isEjected now && b.breaker.admits now b.inFlight

/-! ## The stages of a poll -/

/-- An ejection that has expired ends.  With the latency layer the backend
comes back at partial weight. -/
def reinstate (ewma : Option EwmaConfig) (now : Nat) (b : Backend) : Backend :=
  match b.ejectedUntil with
  | none => b
  | some until_ =>
    if until_ ≤ now then
      let b := { b with ejectedUntil := none, outlierFailures := 0 }
      match ewma with
      | none => b
      | some cfg =>
        { b with rampPercent := cfg.reinstateRamp, lastRampStep := some now }
    else b

/-- Whether a ramp step is due. -/
def rampDue (cfg : EwmaConfig) (now : Nat) (b : Backend) : Bool :=
  match b.lastRampStep with
  | none => true
  | some step => decide (cfg.rampWindowMs ≤ now - step)

/-- The ramp doubles while no ejection is active. -/
def rampUp (cfg : EwmaConfig) (now : Nat) (b : Backend) : Backend :=
  if b.ejectedUntil = none ∧ b.rampPercent < 100 then
    if b.rampDue cfg now then
      { b with
        rampPercent := min (saturatingMul32 b.rampPercent 2) 100
        lastRampStep := some now }
    else b
  else b

/-- Enough samples, and an average above the line. -/
def isOver (cfg : EwmaConfig) (threshold : Nat) (b : Backend) : Bool :=
  decide (cfg.minSamples ≤ b.ewmaSamples) &&
    decide (threshold < b.latencyEwmaMilli.getD 0)

/-- The window has lasted and fresh samples have arrived in it. -/
def windowFull (cfg : EwmaConfig) (now since : Nat) (b : Backend) : Bool :=
  decide (cfg.windowMs ≤ now - since) &&
    decide (cfg.minSamples ≤ b.ewmaSamples - b.overSinceSamples)

/-- The latency evaluation of a backend that is not ejected.  A window opens at
the first poll above the line and closes at the first poll that is not. -/
def evaluateLatency (cfg : EwmaConfig) (threshold now : Nat) (b : Backend) :
    Backend :=
  if b.ejectedUntil = none then
    if b.isOver cfg threshold then
      match b.overSince with
      | none => { b with overSince := some now, overSinceSamples := b.ewmaSamples }
      | some since =>
        if b.windowFull cfg now since then
          { b with
            ejectedUntil := some (saturatingAdd64 now cfg.ejectionMs)
            ewmaEjections := b.ewmaEjections + 1
            overSince := none }
        else b
    else { b with overSince := none }
  else b

/-- The body of the loop of `Pool::poll`. -/
def poll (ewma : Option EwmaConfig) (threshold : Option Nat) (now : Nat)
    (b : Backend) : Backend :=
  let b := { b with breaker := b.breaker.poll now }
  let b := b.reinstate ewma now
  match ewma with
  | none => b
  | some cfg => (b.rampUp cfg now).evaluateLatency cfg (threshold.getD 0) now

/-! ## Calls and outcomes -/

def begin (b : Backend) : Backend := { b with inFlight := incr32 b.inFlight }

/-- `end`. -/
def endCall (b : Backend) : Backend := { b with inFlight := b.inFlight - 1 }

def recordSuccess (now : Nat) (b : Backend) : Backend :=
  { b with
    served := b.served + 1
    outlierFailures := 0
    breaker := b.breaker.onSuccess now }

def recordSuccessLatency (ewma : Option EwmaConfig) (now latencyMs : Nat)
    (b : Backend) : Backend :=
  let b := b.recordSuccess now
  match ewma with
  | none => b
  | some cfg =>
    { b with
      latencyEwmaMilli := some (cfg.fold b.latencyEwmaMilli latencyMs)
      ewmaSamples := incr32 b.ewmaSamples }

/-- Whether a failure at `now` arms an outlier ejection: the failure run reaches
the threshold and no ejection is active. -/
def armsEjection (health : HealthConfig) (now : Nat) (b : Backend) : Bool :=
  decide (health.outlierConsecutiveFailures ≤ incr32 b.outlierFailures) &&
    !b.isEjected now

def recordFailure (health : HealthConfig) (now : Nat) (b : Backend) : Backend :=
  let arms := b.armsEjection health now
  let b := { b with
    served := b.served + 1
    breaker := b.breaker.onFailure now
    outlierFailures := incr32 b.outlierFailures }
  if arms then
    { b with
      ejectedUntil := some (saturatingAdd64 now health.ejectionBaseMs)
      ejections := b.ejections + 1 }
  else b

/-- Whether a probe is due. -/
def probeDue (health : HealthConfig) (now : Nat) (b : Backend) : Bool :=
  match b.lastProbe with
  | none => true
  | some t => decide (health.probeIntervalMs ≤ now - t)

/-- The body of the loop of `Pool::run_health_checks`, with the reply the probe
gets if it is sent. -/
def runHealthCheck (health : HealthConfig) (now : Nat) (live : Bool) (b : Backend) :
    Backend :=
  if b.probeDue health now then
    let b := { b with lastProbe := some now }
    if live then
      let b := { b with probeSuccesses := incr32 b.probeSuccesses, probeFailures := 0 }
      if !b.healthy && decide (health.healthyProbeThreshold ≤ b.probeSuccesses) then
        { b with healthy := true, probeSuccesses := 0 }
      else b
    else
      let b := { b with probeFailures := incr32 b.probeFailures, probeSuccesses := 0 }
      if b.healthy && decide (health.unhealthyProbeThreshold ≤ b.probeFailures) then
        { b with healthy := false, probeFailures := 0 }
      else b
  else b

/-! ## What a poll keeps -/

theorem reinstate_eq (ewma : Option EwmaConfig) (now : Nat) (b : Backend) :
    b.reinstate ewma now =
      { b with
        ejectedUntil := (b.reinstate ewma now).ejectedUntil
        outlierFailures := (b.reinstate ewma now).outlierFailures
        rampPercent := (b.reinstate ewma now).rampPercent
        lastRampStep := (b.reinstate ewma now).lastRampStep } := by
  unfold reinstate
  split
  · rfl
  · split_ifs
    · cases ewma <;> rfl
    · rfl

theorem rampUp_eq (cfg : EwmaConfig) (now : Nat) (b : Backend) :
    b.rampUp cfg now =
      { b with
        rampPercent := (b.rampUp cfg now).rampPercent
        lastRampStep := (b.rampUp cfg now).lastRampStep } := by
  unfold rampUp
  split_ifs <;> rfl

/-- An ejection that has not expired stays. -/
theorem reinstate_of_lt (ewma : Option EwmaConfig) {now : Nat} {b : Backend}
    (h : ∀ u, b.ejectedUntil = some u → now < u) : b.reinstate ewma now = b := by
  unfold reinstate
  cases hu : b.ejectedUntil with
  | none => rfl
  | some u => simp [Nat.not_le_of_lt (h u hu)]

/-- Where no step of the ramp is due, it stays. -/
theorem rampUp_of_not_due {cfg : EwmaConfig} {now : Nat} {b : Backend}
    (h : b.ejectedUntil = none → b.rampPercent < 100 → b.rampDue cfg now = false) :
    b.rampUp cfg now = b := by
  unfold rampUp
  split_ifs with hramp hdue
  · exact absurd (hdue.symm.trans (h hramp.1 hramp.2)) (by decide)
  · rfl
  · rfl

/-- An ejection that has expired ends, and the backend comes back at the start of its
ramp. -/
theorem reinstate_of_le (cfg : EwmaConfig) {now u : Nat} {b : Backend}
    (hu : b.ejectedUntil = some u) (hle : u ≤ now) :
    b.reinstate (some cfg) now =
      { b with
        ejectedUntil := none
        outlierFailures := 0
        rampPercent := cfg.reinstateRamp
        lastRampStep := some now } := by
  simp [reinstate, hu, hle]

theorem rampUp_of_due {cfg : EwmaConfig} {now : Nat} {b : Backend}
    (hu : b.ejectedUntil = none) (hlt : b.rampPercent < 100)
    (hdue : b.rampDue cfg now = true) :
    b.rampUp cfg now =
      { b with rampPercent := min (2 * b.rampPercent) 100, lastRampStep := some now } := by
  have hdouble : min (saturatingMul32 b.rampPercent 2) 100 = min (2 * b.rampPercent) 100 := by
    unfold saturatingMul32 u32Max
    omega
  unfold rampUp
  rw [if_pos ⟨hu, hlt⟩, if_pos hdue, hdouble]

theorem evaluateLatency_eq (cfg : EwmaConfig) (line now : Nat) (b : Backend) :
    b.evaluateLatency cfg line now =
      { b with
        ejectedUntil := (b.evaluateLatency cfg line now).ejectedUntil
        overSince := (b.evaluateLatency cfg line now).overSince
        overSinceSamples := (b.evaluateLatency cfg line now).overSinceSamples
        ewmaEjections := (b.evaluateLatency cfg line now).ewmaEjections } := by
  unfold evaluateLatency
  split_ifs
  · split
    · rfl
    · split_ifs <;> rfl
  · rfl
  · rfl

/-- A poll writes the breaker and the ejection, window and ramp fields only. -/
theorem poll_eq (ewma : Option EwmaConfig) (threshold : Option Nat) (now : Nat)
    (b : Backend) :
    b.poll ewma threshold now =
      { b with
        breaker := b.breaker.poll now
        outlierFailures := (b.poll ewma threshold now).outlierFailures
        ejectedUntil := (b.poll ewma threshold now).ejectedUntil
        overSince := (b.poll ewma threshold now).overSince
        overSinceSamples := (b.poll ewma threshold now).overSinceSamples
        ewmaEjections := (b.poll ewma threshold now).ewmaEjections
        rampPercent := (b.poll ewma threshold now).rampPercent
        lastRampStep := (b.poll ewma threshold now).lastRampStep } := by
  unfold poll
  cases ewma with
  | none => simp only; rw [reinstate_eq]
  | some cfg => simp only; rw [evaluateLatency_eq, rampUp_eq, reinstate_eq]

section PollFields

variable (ewma : Option EwmaConfig) (threshold : Option Nat) (now : Nat) (b : Backend)

@[simp] theorem poll_name : (b.poll ewma threshold now).name = b.name := by
  rw [poll_eq]

@[simp] theorem poll_weight : (b.poll ewma threshold now).weight = b.weight := by
  rw [poll_eq]

@[simp] theorem poll_inFlight : (b.poll ewma threshold now).inFlight = b.inFlight := by
  rw [poll_eq]

@[simp] theorem poll_healthy : (b.poll ewma threshold now).healthy = b.healthy := by
  rw [poll_eq]

@[simp] theorem poll_breaker :
    (b.poll ewma threshold now).breaker = b.breaker.poll now := by
  rw [poll_eq]

@[simp] theorem poll_currentWeight :
    (b.poll ewma threshold now).currentWeight = b.currentWeight := by
  rw [poll_eq]

@[simp] theorem poll_served : (b.poll ewma threshold now).served = b.served := by
  rw [poll_eq]

@[simp] theorem poll_ejections :
    (b.poll ewma threshold now).ejections = b.ejections := by
  rw [poll_eq]

@[simp] theorem poll_latencyEwmaMilli :
    (b.poll ewma threshold now).latencyEwmaMilli = b.latencyEwmaMilli := by
  rw [poll_eq]

@[simp] theorem poll_ewmaSamples :
    (b.poll ewma threshold now).ewmaSamples = b.ewmaSamples := by
  rw [poll_eq]

end PollFields

/-- A poll leaves a ramp in percent. -/
theorem poll_rampPercent_le (ewma : Option EwmaConfig) (threshold : Option Nat)
    (now : Nat) {b : Backend} (h : b.rampPercent ≤ 100) :
    (b.poll ewma threshold now).rampPercent ≤ 100 := by
  have hrein : ({ b with breaker := b.breaker.poll now }.reinstate ewma now).rampPercent ≤
      100 := by
    unfold reinstate
    split
    · exact h
    · split_ifs
      · cases ewma with
        | none => exact h
        | some cfg =>
          simp only [EwmaConfig.reinstateRamp]
          omega
      · exact h
  unfold poll
  cases ewma with
  | none => exact hrein
  | some cfg =>
    simp only
    rw [evaluateLatency_eq]
    simp only [rampUp]
    split_ifs
    · exact Nat.min_le_right _ _
    · exact hrein
    · exact hrein

/-! ## What a poll does to an ejection -/

/-- The reinstatement ends exactly an expired ejection. -/
theorem reinstate_ejectedUntil (ewma : Option EwmaConfig) (now : Nat) (b : Backend) :
    (b.reinstate ewma now).ejectedUntil =
      if b.isEjected now then b.ejectedUntil else none := by
  unfold reinstate isEjected
  cases hu : b.ejectedUntil with
  | none => simp [hu]
  | some u =>
    by_cases hle : u ≤ now
    · have hlt : ¬ now < u := Nat.not_lt.mpr hle
      cases ewma <;> simp [hle]
    · have hlt : now < u := Nat.lt_of_not_le hle
      simp [hu, hle, hlt]

/-- The five ways a latency evaluation can go. -/
theorem evaluateLatency_cases (cfg : EwmaConfig) (line now : Nat) (b : Backend) :
    (b.ejectedUntil ≠ none ∧ b.evaluateLatency cfg line now = b) ∨
    (b.ejectedUntil = none ∧ b.isOver cfg line = false ∧
      b.evaluateLatency cfg line now = { b with overSince := none }) ∨
    (b.ejectedUntil = none ∧ b.isOver cfg line = true ∧ b.overSince = none ∧
      b.evaluateLatency cfg line now =
        { b with overSince := some now, overSinceSamples := b.ewmaSamples }) ∨
    (∃ since, b.ejectedUntil = none ∧ b.isOver cfg line = true ∧
      b.overSince = some since ∧ b.windowFull cfg now since = false ∧
      b.evaluateLatency cfg line now = b) ∨
    (∃ since, b.ejectedUntil = none ∧ b.isOver cfg line = true ∧
      b.overSince = some since ∧ b.windowFull cfg now since = true ∧
      b.evaluateLatency cfg line now =
        { b with
          ejectedUntil := some (saturatingAdd64 now cfg.ejectionMs)
          ewmaEjections := b.ewmaEjections + 1
          overSince := none }) := by
  unfold evaluateLatency
  by_cases he : b.ejectedUntil = none
  · cases ho : b.isOver cfg line with
    | false => exact Or.inr (Or.inl ⟨he, rfl, by simp [he]⟩)
    | true =>
      cases hs : b.overSince with
      | none => exact Or.inr (Or.inr (Or.inl ⟨he, rfl, rfl, by simp [he]⟩))
      | some since =>
        cases hw : b.windowFull cfg now since with
        | false =>
          exact Or.inr (Or.inr (Or.inr (Or.inl ⟨since, he, rfl, rfl, hw, by simp [he, hw]⟩)))
        | true =>
          exact Or.inr (Or.inr (Or.inr (Or.inr ⟨since, he, rfl, rfl, hw, by simp [he, hw]⟩)))
  · exact Or.inl ⟨he, by simp [he]⟩

/-- The part of a backend that the ejections read and write. -/
structure Ejection where
  ejectedUntil : Option Nat
  ejections : Nat
  ewmaEjections : Nat
  overSince : Option Nat
  overSinceSamples : Nat
deriving DecidableEq

def ejection (b : Backend) : Ejection where
  ejectedUntil := b.ejectedUntil
  ejections := b.ejections
  ewmaEjections := b.ewmaEjections
  overSince := b.overSince
  overSinceSamples := b.overSinceSamples

/-- Without the latency layer a poll ends an expired ejection and nothing else. -/
theorem poll_none_ejection (threshold : Option Nat) (now : Nat) (b : Backend) :
    (b.poll none threshold now).ejection =
      { b.ejection with
        ejectedUntil := if b.isEjected now then b.ejectedUntil else none } := by
  have hrein :
      ({ b with breaker := b.breaker.poll now }.reinstate none now).ejectedUntil =
        if b.isEjected now then b.ejectedUntil else none :=
    reinstate_ejectedUntil none now _
  have hpoll : b.poll none threshold now =
      { b with breaker := b.breaker.poll now }.reinstate none now := rfl
  rw [hpoll, reinstate_eq, hrein]
  rfl

/-- With the latency layer a poll keeps an active ejection as it is, and
evaluates a backend that is not ejected at its time. -/
theorem poll_some_cases (cfg : EwmaConfig) (threshold : Option Nat) (now : Nat)
    (b : Backend) :
    (b.isEjected now = true ∧
      (b.poll (some cfg) threshold now).ejection = b.ejection) ∨
    (b.isEjected now = false ∧ b.isOver cfg (threshold.getD 0) = false ∧
      (b.poll (some cfg) threshold now).ejection =
        { b.ejection with ejectedUntil := none, overSince := none }) ∨
    (b.isEjected now = false ∧ b.isOver cfg (threshold.getD 0) = true ∧
      b.overSince = none ∧
      (b.poll (some cfg) threshold now).ejection =
        { b.ejection with
          ejectedUntil := none
          overSince := some now
          overSinceSamples := b.ewmaSamples }) ∨
    (∃ since, b.isEjected now = false ∧ b.isOver cfg (threshold.getD 0) = true ∧
      b.overSince = some since ∧ b.windowFull cfg now since = false ∧
      (b.poll (some cfg) threshold now).ejection =
        { b.ejection with ejectedUntil := none }) ∨
    (∃ since, b.isEjected now = false ∧ b.isOver cfg (threshold.getD 0) = true ∧
      b.overSince = some since ∧ b.windowFull cfg now since = true ∧
      (b.poll (some cfg) threshold now).ejection =
        { b.ejection with
          ejectedUntil := some (saturatingAdd64 now cfg.ejectionMs)
          ewmaEjections := b.ewmaEjections + 1
          overSince := none }) := by
  -- The first three stages, as one update of `b`.
  have hstages : ∃ rp ls fs, ({ b with breaker := b.breaker.poll now }.reinstate
      (some cfg) now).rampUp cfg now =
      { b with
        breaker := b.breaker.poll now
        outlierFailures := fs
        ejectedUntil := if b.isEjected now then b.ejectedUntil else none
        rampPercent := rp
        lastRampStep := ls } := by
    have hrein :
        ({ b with breaker := b.breaker.poll now }.reinstate (some cfg) now).ejectedUntil =
          if b.isEjected now then b.ejectedUntil else none :=
      reinstate_ejectedUntil (some cfg) now _
    exact ⟨_, _, _, by rw [rampUp_eq, reinstate_eq, hrein]⟩
  obtain ⟨rp, ls, fs, hc⟩ := hstages
  have hpoll : b.poll (some cfg) threshold now =
      (({ b with breaker := b.breaker.poll now }.reinstate (some cfg) now).rampUp cfg
        now).evaluateLatency cfg (threshold.getD 0) now := rfl
  rw [hpoll, hc]
  by_cases he : b.isEjected now = true
  · obtain ⟨u, hu⟩ : ∃ u, b.ejectedUntil = some u := by
      unfold isEjected at he
      cases hb : b.ejectedUntil with
      | none => simp [hb] at he
      | some u => exact ⟨u, rfl⟩
    refine Or.inl ⟨he, ?_⟩
    simp [evaluateLatency, ejection, hu, he]
  · rw [if_neg he]
    have he : b.isEjected now = false := Bool.not_eq_true _ ▸ he
    rcases evaluateLatency_cases cfg (threshold.getD 0) now
        { b with
          breaker := b.breaker.poll now
          outlierFailures := fs
          ejectedUntil := none
          rampPercent := rp
          lastRampStep := ls } with
      ⟨hne, _⟩ | ⟨_, ho, heq⟩ | ⟨_, ho, hs, heq⟩ | ⟨since, _, ho, hs, hw, heq⟩ |
        ⟨since, _, ho, hs, hw, heq⟩
    · exact absurd rfl hne
    · exact Or.inr (Or.inl ⟨he, ho, by rw [heq]; rfl⟩)
    · exact Or.inr (Or.inr (Or.inl ⟨he, ho, hs, by rw [heq]; rfl⟩))
    · exact Or.inr (Or.inr (Or.inr (Or.inl ⟨since, he, ho, hs, hw, by rw [heq]; rfl⟩)))
    · exact Or.inr (Or.inr (Or.inr (Or.inr ⟨since, he, ho, hs, hw, by rw [heq]; rfl⟩)))

/-- What a poll does to the expiry and the count of latency ejections: it ends an
expired ejection, or it sets a new one for the latency. -/
theorem ejectedUntil_poll_cases (ewma : Option EwmaConfig) (threshold : Option Nat)
    (now : Nat) (b : Backend) :
    ((b.poll ewma threshold now).ejectedUntil =
        (if b.isEjected now then b.ejectedUntil else none) ∧
      (b.poll ewma threshold now).ewmaEjections = b.ewmaEjections) ∨
    (∃ u, (b.poll ewma threshold now).ejectedUntil = some u ∧
      (b.poll ewma threshold now).ewmaEjections = b.ewmaEjections + 1) := by
  change ((b.poll ewma threshold now).ejection.ejectedUntil = _ ∧
      (b.poll ewma threshold now).ejection.ewmaEjections = _) ∨
    (∃ u, (b.poll ewma threshold now).ejection.ejectedUntil = some u ∧
      (b.poll ewma threshold now).ejection.ewmaEjections = _)
  cases ewma with
  | none => exact Or.inl (by rw [poll_none_ejection]; exact ⟨rfl, rfl⟩)
  | some cfg =>
    rcases poll_some_cases cfg threshold now b with
      ⟨he, hk⟩ | ⟨he, _, hk⟩ | ⟨he, _, _, hk⟩ | ⟨_, he, _, _, _, hk⟩ | ⟨_, _, _, _, _, hk⟩
    case inr.inr.inr.inr => exact Or.inr ⟨_, by rw [hk], by rw [hk]⟩
    all_goals exact Or.inl (by rw [hk]; simp [he, ejection])

/-- A poll that ends an ejection forgets the failure run, and no other poll touches
it. -/
theorem poll_outlierFailures (ewma : Option EwmaConfig) (threshold : Option Nat)
    (now : Nat) (b : Backend) :
    (b.poll ewma threshold now).outlierFailures =
      if b.ejectedUntil ≠ none ∧ b.isEjected now = false then 0 else b.outlierFailures := by
  have hrein : ({ b with breaker := b.breaker.poll now }.reinstate ewma now).outlierFailures =
      if b.ejectedUntil ≠ none ∧ b.isEjected now = false then 0 else b.outlierFailures := by
    unfold reinstate isEjected
    cases hu : b.ejectedUntil with
    | none => simp
    | some u =>
      by_cases hle : u ≤ now
      · cases ewma <;> simp [hle]
      · simp [hle, Nat.lt_of_not_le hle]
  rw [← hrein]
  unfold poll
  cases ewma with
  | none => rfl
  | some cfg => simp only; rw [evaluateLatency_eq, rampUp_eq]

/-- A window that is open after a poll was opened by it, or goes on. -/
theorem overSince_poll {cfg : EwmaConfig} {threshold : Option Nat} {now : Nat}
    {b : Backend} {since : Nat} (hu : (b.poll (some cfg) threshold now).ejectedUntil = none)
    (hs : (b.poll (some cfg) threshold now).overSince = some since) :
    b.isEjected now = false ∧ b.isOver cfg (threshold.getD 0) = true ∧
      ((since = now ∧
          (b.poll (some cfg) threshold now).overSinceSamples = b.ewmaSamples) ∨
        (b.overSince = some since ∧
          (b.poll (some cfg) threshold now).overSinceSamples = b.overSinceSamples)) := by
  change (b.poll (some cfg) threshold now).ejection.ejectedUntil = none at hu
  change (b.poll (some cfg) threshold now).ejection.overSince = some since at hs
  change _ ∧ _ ∧ ((_ ∧ (b.poll (some cfg) threshold now).ejection.overSinceSamples = _) ∨
    (_ ∧ (b.poll (some cfg) threshold now).ejection.overSinceSamples = _))
  rcases poll_some_cases cfg threshold now b with
    ⟨he, hk⟩ | ⟨_, _, hk⟩ | ⟨he, ho, _, hk⟩ | ⟨since', he, ho, hs', _, hk⟩ |
      ⟨_, _, _, _, _, hk⟩ <;> rw [hk] at hu hs ⊢
  · simp only [ejection] at hu
    simp [isEjected, hu] at he
  · exact absurd hs (by simp)
  · exact ⟨he, ho, Or.inl ⟨(Option.some.inj hs).symm, rfl⟩⟩
  · exact ⟨he, ho, Or.inr ⟨hs, rfl⟩⟩
  · exact absurd hs (by simp)

/-- A poll that counts a latency ejection found a full window. -/
theorem windowFull_of_ewmaEjections {cfg : EwmaConfig} {threshold : Option Nat}
    {now : Nat} {b : Backend}
    (h : b.ewmaEjections < (b.poll (some cfg) threshold now).ewmaEjections) :
    ∃ since, b.isEjected now = false ∧ b.isOver cfg (threshold.getD 0) = true ∧
      b.overSince = some since ∧ b.windowFull cfg now since = true := by
  change b.ewmaEjections < (b.poll (some cfg) threshold now).ejection.ewmaEjections at h
  rcases poll_some_cases cfg threshold now b with
    ⟨_, hk⟩ | ⟨_, _, hk⟩ | ⟨_, _, _, hk⟩ | ⟨_, _, _, _, _, hk⟩ | ⟨since, he, ho, hs, hw, _⟩
  case inr.inr.inr.inr => exact ⟨since, he, ho, hs, hw⟩
  all_goals
    rw [hk] at h
    exact absurd h (Nat.lt_irrefl _)

/-! ## What the other operations keep -/

/-- A failure as one update. -/
theorem recordFailure_eq (health : HealthConfig) (now : Nat) (b : Backend) :
    b.recordFailure health now =
      { b with
        served := b.served + 1
        breaker := b.breaker.onFailure now
        outlierFailures := incr32 b.outlierFailures
        ejectedUntil :=
          if b.armsEjection health now then
            some (saturatingAdd64 now health.ejectionBaseMs)
          else b.ejectedUntil
        ejections :=
          if b.armsEjection health now then b.ejections + 1 else b.ejections } := by
  unfold recordFailure
  cases b.armsEjection health now <;> rfl

/-- A success with a latency as one update. -/
theorem recordSuccessLatency_eq (ewma : Option EwmaConfig) (now latencyMs : Nat)
    (b : Backend) :
    b.recordSuccessLatency ewma now latencyMs =
      { b with
        served := b.served + 1
        outlierFailures := 0
        breaker := b.breaker.onSuccess now
        latencyEwmaMilli :=
          match ewma with
          | none => b.latencyEwmaMilli
          | some cfg => some (cfg.fold b.latencyEwmaMilli latencyMs)
        ewmaSamples :=
          match ewma with
          | none => b.ewmaSamples
          | some _ => incr32 b.ewmaSamples } := by
  unfold recordSuccessLatency
  cases ewma <;> rfl

/-- A health check writes the probe fields only. -/
theorem runHealthCheck_eq (health : HealthConfig) (now : Nat) (live : Bool)
    (b : Backend) :
    b.runHealthCheck health now live =
      { b with
        lastProbe := (b.runHealthCheck health now live).lastProbe
        healthy := (b.runHealthCheck health now live).healthy
        probeSuccesses := (b.runHealthCheck health now live).probeSuccesses
        probeFailures := (b.runHealthCheck health now live).probeFailures } := by
  unfold runHealthCheck
  split_ifs <;> simp only
  all_goals split_ifs <;> rfl

end Backend

end Echofront
