import Echofront.Pool.Flaps
import Echofront.Proxy.Session

/-!
# Flaps behind the proxy

`Proxy::run_health_checks` may be called at any time and as often as one likes.  What an
observer of the proxy sees of the health of a backend changes no more often than the
thresholds and the interval of the probes allow: `flaps_rate_limited` is the statement about
sessions.
-/

namespace Echofront

open Lib

namespace Proxy

/-- Whether backend `i` of `service` is healthy. -/
def isHealthy (service : String) (i : Nat) (px : Proxy) : Bool :=
  ((px.pools service).map (Pool.isHealthy i)).getD false

variable {px : Proxy} {service : String} {pool : Pool} {i : Nat}

theorem isHealthy_eq (hpool : px.pools service = some pool) :
    isHealthy service i px = Pool.isHealthy i pool := by
  simp [isHealthy, hpool]

/-- A change of the health that a session shows is one of a call on the pool. -/
theorem turns_le_calls (h : px.Reachable) (hpool : px.pools service = some pool)
    {ops : List SessionOp} (hv : sessionSystem.Valid px ops)
    (hkeep : ∀ op ∈ ops, op.Keeps service) (live : Bool) :
    sessionSystem.total (sessionSystem.turns (isHealthy service i) live) px ops ≤
      poolSystem.total (poolSystem.turns (Pool.isHealthy i) live) pool
        (sessionSystem.calls (callsOf service) px ops) := by
  refine total_le_calls h hpool hv hkeep (fun q p op hreach hp hok hk => ?_)
  obtain ⟨_, hpools⟩ := pools_step hreach hok hk hp
  have hturn := System.turn_le_total (M := poolSystem) (Pool.isHealthy i) live p
    (q.callsOf service op)
  have hafter : isHealthy service i (sessionSystem.step q op) =
      Pool.isHealthy i (poolSystem.exec p (q.callsOf service op)) := isHealthy_eq hpools
  rw [System.turns, isHealthy_eq hp, hafter]
  exact hturn

/-- Flapping is rate limited.  Over any session within `[t, T]`, however often the health
checks are run, a backend gets at most one probe, and one more for each probe interval.  Of
these, and of the replies that were counted before, every time that the backend is seen to
become healthy takes the healthy threshold, and every time that it is seen to become
unhealthy the unhealthy threshold. -/
theorem flaps_rate_limited (h : px.Reachable) (hpool : px.pools service = some pool)
    (hi : i < pool.backends.length) (hpos : 0 < pool.health.probeIntervalMs)
    {ops : List SessionOp} (hv : sessionSystem.Valid px ops)
    (hkeep : ∀ op ∈ ops, op.Keeps service) (hn : Nondecreasing SessionOp.time ops)
    {t T : Nat} (hle : t ≤ T) (ht : ∀ op ∈ ops, ∀ u, op.time = some u → t ≤ u ∧ u ≤ T) :
    poolSystem.total (Pool.probesSent i) pool (sessionSystem.calls (callsOf service) px ops) ≤
        1 + (T - t) / pool.health.probeIntervalMs ∧
      max 1 pool.health.healthyProbeThreshold *
          sessionSystem.total (sessionSystem.turns (isHealthy service i) true) px ops +
        max 1 pool.health.unhealthyProbeThreshold *
          sessionSystem.total (sessionSystem.turns (isHealthy service i) false) px ops ≤
        (pool.backend i).probing.count (!(pool.backend i).healthy) +
          poolSystem.total (Pool.probesSent i) pool
            (sessionSystem.calls (callsOf service) px ops) := by
  obtain ⟨hvalid, _, htimed⟩ := pools_exec h hpool hv hkeep
  refine ⟨Pool.probes_le hi hpos hvalid (htimed hn) hle (forall_time_calls ht), ?_⟩
  refine Nat.le_trans (Nat.add_le_add ?_ ?_) (Pool.turns_le hi hvalid)
  · exact Nat.mul_le_mul_left _ (turns_le_calls h hpool hv hkeep true)
  · exact Nat.mul_le_mul_left _ (turns_le_calls h hpool hv hkeep false)

/-- Four rounds of checks within two seconds, with an interval of one, are at most three
probes of a backend. -/
theorem flaps_rate_limited_two :
    poolSystem.total (Pool.probesSent 0) .twoBackends
      (sessionSystem.calls (callsOf "api") twoBackends
        [.runHealthChecks 0 (fun _ _ => false), .runHealthChecks 500 (fun _ _ => false),
          .runHealthChecks 1500 (fun _ _ => true), .runHealthChecks 2000 (fun _ _ => true)]) ≤
      3 := by
  have hpool : twoBackends.pools "api" = some .twoBackends := rfl
  have hv : sessionSystem.Valid twoBackends
      [.runHealthChecks 0 (fun _ _ => false), .runHealthChecks 500 (fun _ _ => false),
        .runHealthChecks 1500 (fun _ _ => true), .runHealthChecks 2000 (fun _ _ => true)] :=
    ⟨trivial, trivial, trivial, trivial, trivial⟩
  exact (flaps_rate_limited reachable_twoBackends hpool (by decide) (by decide) hv
    (by simp [SessionOp.Keeps]) (by decide) (t := 0) (T := 2000) (by decide)
    (by simp [SessionOp.time])).1

end Proxy

end Echofront
