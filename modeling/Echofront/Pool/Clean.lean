import Echofront.Pool.Classes
import Echofront.Pool.Ramp

/-!
# Clean backends

The breaker, the outlier ejection, the health checks and the latency layer each take a
backend out of rotation.  A backend is clean when it gives none of them a reason: no failure
of it is recorded, its probes are good, and it is fast.

`CleanBackend` is what a clean backend keeps, whatever happens to the others: its breaker is
closed, no ejection is set, and its ramp is full.  So it is available at every time, and at
its full weight (`CleanPool.isAvailable_poll`).
-/

namespace Echofront

open Lib

/-- With no ejection to end and a full ramp a poll leaves the ramp. -/
theorem Backend.poll_rampPercent_of_full (ewma : Option EwmaConfig) (threshold : Option Nat)
    (now : Nat) {b : Backend} (hu : b.ejectedUntil = none) (hr : b.rampPercent = 100) :
    (b.poll ewma threshold now).rampPercent = 100 := by
  cases ewma with
  | none =>
    have hnone : ∀ u, b.ejectedUntil = some u → now < u :=
      fun u hsome => absurd (hu.symm.trans hsome) (by simp)
    show ({ b with breaker := b.breaker.poll now }.reinstate none now).rampPercent = 100
    rw [reinstate_of_lt (b := { b with breaker := b.breaker.poll now }) none hnone]
    exact hr
  | some cfg =>
    rcases b.poll_ramp_cases cfg threshold now with ⟨⟨u, hsome, _⟩, _⟩ | ⟨_, _, hsame, _⟩ |
      ⟨_, hlt, _⟩
    · exact absurd (hu.symm.trans hsome) (by simp)
    · exact hsame.trans hr
    · omega

namespace Pool

/-- A call that gives the pool no reason to take backend `i` out of rotation: it records no
failure of it, and a probe of it is good. -/
def Spares (i : Nat) : Op → Prop
  | .recordFailure idx _ => idx ≠ i
  | .runHealthChecks _ probe => probe i = true
  | _ => True

/-- What calls that spare a backend keep of it. -/
structure CleanBackend (b : Backend) : Prop where
  state : b.breaker.state = .closed
  trips : b.breaker.trips = 0
  ejectedUntil : b.ejectedUntil = none
  ejections : b.ejections = 0
  rampPercent : b.rampPercent = 100

/-- A pool in which backend `i` is clean. -/
structure CleanPool (low high i : Nat) (p : Pool) : Prop where
  fast : FastPool low high i p
  backend : CleanBackend (p.backend i)

variable {low high i : Nat} {p : Pool}

theorem Backend.Fresh.clean {b : Backend} (hb : b.Fresh) : CleanBackend b := by
  obtain ⟨health, cfg, heq⟩ := hb
  constructor <;> rw [heq] <;> rfl

/-- A poll leaves a closed breaker. -/
theorem CleanBackend.poll {b : Backend} (hb : CleanBackend b) (now : Nat) :
    b.breaker.poll now = b.breaker := by
  simp [CircuitBreaker.poll, hb.state]

/-- A closed breaker stays closed while no failure is recorded. -/
theorem CleanBackend.onSuccess {b : Backend} (hb : CleanBackend b) (now : Nat) :
    (b.breaker.onSuccess now).state = .closed ∧ (b.breaker.onSuccess now).trips = 0 := by
  have hpoll : (b.breaker.poll now).state = .closed := by
    rw [hb.poll]
    exact hb.state
  refine ⟨?_, (CircuitBreaker.onSuccess_trips _ _).trans hb.trips⟩
  rcases CircuitBreaker.onSuccess_cases b.breaker now with ⟨_, h⟩ | ⟨hs, _⟩ | ⟨hs, _⟩ | ⟨hs, _⟩
  · rw [h]
    exact hpoll
  all_goals exact absurd (hpoll.symm.trans hs) (by decide)

/-- What a call that spares the backend does to it.  `hcount` says that it counts no latency
ejection. -/
theorem CleanBackend.effect (hb : CleanBackend (p.backend i)) {op : Op} (hop : Spares i op)
    (hcount : (p.effect op i (p.backend i)).ewmaEjections = (p.backend i).ewmaEjections) :
    CleanBackend (p.effect op i (p.backend i)) := by
  have hstep := p.effectStep op i (p.backend i)
  generalize p.effect op i (p.backend i) = b' at hstep hcount ⊢
  cases hstep with
  | polled now =>
    refine ⟨?_, ?_, ?_, ?_, Backend.poll_rampPercent_of_full _ _ _ hb.ejectedUntil hb.rampPercent⟩
    · rw [Backend.poll_breaker, hb.poll]
      exact hb.state
    · rw [Backend.poll_breaker, hb.poll]
      exact hb.trips
    · rcases (p.backend i).ejectedUntil_poll_cases p.ewma p.threshold now with ⟨hu, _⟩ | ⟨_, _, hc⟩
      · rw [hu, hb.ejectedUntil, ite_self]
      · omega
    · rw [Backend.poll_ejections]
      exact hb.ejections
  | succeeded now =>
    exact ⟨(hb.onSuccess now).1, (hb.onSuccess now).2, hb.ejectedUntil, hb.ejections,
      hb.rampPercent⟩
  | measured now latencyMs =>
    exact ⟨(hb.onSuccess now).1, (hb.onSuccess now).2, hb.ejectedUntil, hb.ejections,
      hb.rampPercent⟩
  | failed now => exact absurd rfl hop
  | _ => exact ⟨hb.state, hb.trips, hb.ejectedUntil, hb.ejections, hb.rampPercent⟩

namespace CleanPool

theorem new (name : String) (strategy : Strategy) (health : HealthConfig) :
    CleanPool low high i (.new name strategy health) :=
  ⟨fastPool_new name strategy health, Backend.Fresh.clean ⟨.default, .default, rfl⟩⟩

/-- The step lemma. -/
theorem apply (hp : CleanPool low high i p) {op : Op} (hok : p.Accepts op)
    (hop : KeepsFast low high i op ∧ Spares i op) : CleanPool low high i (p.apply op) := by
  have hfast := hp.fast.apply hok hop.1
  refine ⟨hfast, ?_⟩
  rcases backend_apply_cases hok i with ⟨_, heq⟩ | ⟨_, hfresh⟩
  · rw [heq]
    refine hp.backend.effect hop.2 ?_
    rw [← heq, hfast.backend.ewmaEjections, hp.fast.backend.ewmaEjections]
  · exact Backend.Fresh.clean hfresh

/-- The run lemma. -/
theorem exec (hp : CleanPool low high i p) {ops : List Op} (hv : poolSystem.Valid p ops)
    (hops : ∀ op ∈ ops, KeepsFast low high i op ∧ Spares i op) :
    CleanPool low high i (poolSystem.exec p ops) :=
  System.preserved (M := poolSystem) (fun _ _ hq hok hop => hq.apply hok hop) hp hv hops

/-- A clean backend that is healthy is available after a poll, at its full weight. -/
theorem isAvailable_poll (hp : CleanPool low high i p) (hi : i < p.backends.length)
    (hh : (p.backend i).healthy = true) (t : Nat) :
    ((p.poll t).backend i).isAvailable t = true ∧ ((p.poll t).backend i).rampPercent = 100 := by
  have hok : p.Accepts (.poll t) := trivial
  have hpolled : CleanPool low high i (p.poll t) := hp.apply hok ⟨trivial, trivial⟩
  have hb := hpolled.backend
  have hhealthy : ((p.poll t).backend i).healthy = true := by
    rw [show (p.poll t).backend i = _ from backend_apply_of_lt hi (.poll t)]
    exact (Backend.poll_healthy _ _ _ _).trans hh
  refine ⟨?_, hb.rampPercent⟩
  rw [Backend.isAvailable, hhealthy, Backend.isEjected, hb.ejectedUntil,
    (CircuitBreaker.admits_eq_true_iff _ _ _).mpr (Or.inl hb.state)]
  rfl

end CleanPool

end Pool

end Echofront
