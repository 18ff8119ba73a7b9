import Echofront.Proxy.Outage
import Echofront.Proxy.Retries

/-!
# The ledger of a session

What the counters of the proxy and of its pools say about a session.  The attempts that the
results of the requests list are the ones that the pools count, each exactly once: no
attempt is lost, and none is counted twice, whatever else happens between them.

`session_ledger` is the statement; `served_step` and `counters_step` are its two steps.
-/

namespace Echofront

open Lib

/-- One for a call that records an outcome of backend `i`. -/
def Op.records (i : Nat) : Op → Nat
  | .recordSuccess idx _ | .recordSuccessLatency idx _ _ | .recordFailure idx _ =>
    if idx = i then 1 else 0
  | _ => 0

/-- One for a direct call on the pool of `service` that records an outcome of backend
`i`. -/
def SessionOp.records (service : String) (i : Nat) : SessionOp → Nat
  | .poolCall name op => if name = service then op.records i else 0
  | _ => 0

/-- One for a request. -/
def SessionOp.requests : SessionOp → Nat
  | .handle _ _ _ => 1
  | _ => 0

namespace Pool

/-- Every outcome that is recorded is counted. -/
theorem served_apply {p : Pool} {i : Nat} (hi : i < p.backends.length) (op : Op) :
    ((p.apply op).backend i).served = (p.backend i).served + op.records i := by
  rw [backend_apply_of_lt hi]
  have hstep := p.effectStep op i (p.backend i)
  generalize p.effect op i (p.backend i) = b' at hstep ⊢
  cases hstep with
  | polled now => rw [Backend.poll_served]; rfl
  | succeeded now => simp [Op.records]
  | measured now latencyMs => simp [Op.records]
  | failed now => simp [Op.records]
  | other hpoll hne =>
    -- a call that names another backend
    have hnone : op.records i = 0 := by
      unfold Op.records
      split <;> first | rfl | exact if_neg (fun he => hne (by rw [← he]; rfl))
    rw [hnone, Nat.add_zero]
  | _ => rfl

end Pool

namespace Proxy

variable {px : Proxy} {service : String} {pool : Pool} {i : Nat}

/-- The outcomes that the pool of `service` has counted for backend `i`. -/
def servedBy (service : String) (i : Nat) (px : Proxy) : Nat :=
  ((px.pools service).map (fun p => (p.backend i).served)).getD 0

theorem servedBy_eq (hpool : px.pools service = some pool) :
    servedBy service i px = (pool.backend i).served := by
  simp [servedBy, hpool]

/-- The retries that a call of a session sends. -/
def retriesOf (px : Proxy) : SessionOp → Nat
  | .handle now req replies => ((px.handle now req replies).map (fun r => retriesIn r.1)).getD 0
  | _ => 0

/-- The attempts on a backend, as a count. -/
theorem countP_attemptOn (as : List Attempt) (i : Nat) :
    as.countP (attemptOn i) = (as.map Attempt.backend).count i := by
  rw [List.count, List.countP_map]
  rfl

/-- What one call of a session adds to the count of a backend. -/
theorem served_step (h : px.Reachable) (hpool : px.pools service = some pool)
    (hi : i < pool.backends.length) {op : SessionOp} (hok : px.Takes op)
    (hkeep : op.Keeps service) :
    servedBy service i (px.apply (px.opOf op)) = servedBy service i px +
      (px.countIn service (attemptOn i) op + op.records service i) := by
  obtain ⟨_, hafter⟩ := pools_step h hok hkeep hpool
  rw [servedBy_eq hpool, servedBy_eq hafter]
  have hcall := Pool.served_apply (p := pool) hi
  cases op with
  | setStickyHeader header => rfl
  | addPool q => rfl
  | poolCall name op =>
    by_cases hn : name = service
    · simp only [callsOf, if_pos hn, countIn, SessionOp.records, Nat.zero_add]
      exact hcall op
    · simp [callsOf, hn, countIn, SessionOp.records]
  | runHealthChecks now probe => exact hcall (.runHealthChecks now (probe service))
  | handle now req replies =>
    by_cases hroute : px.router.route req = some service
    · obtain ⟨response, s₁, s, hh, heq⟩ :=
        handle_of_pool (poolsOk_of_reachable h) hroute hpool now replies
      have hpools : (px.apply (px.opOf (.handle now req replies))).pools service =
          some s.pool := by
        simp only [opOf, apply, heq, Option.map_some, Option.getD_some]
        exact hh.pools.1
      have hcount : px.countIn service (attemptOn i) (.handle now req replies) =
          (s.attempts.map Attempt.backend).count i := by
        simp only [countIn, if_pos hroute, heq]
        exact countP_attemptOn s.attempts i
      rw [Option.some.inj (hafter.symm.trans hpools), (hh.backends.2 i hi).2, hcount]
      rfl
    · rw [callsOf, handleCalls_of_not_routed hroute]
      simp [countIn, hroute, SessionOp.records]

/-- What one call of a session adds to the counters of the proxy. -/
theorem counters_step (h : PoolsOk px) (op : SessionOp) :
    (px.apply (px.opOf op)).totalRequests = px.totalRequests + op.requests ∧
      (px.apply (px.opOf op)).totalFailovers = px.totalFailovers + px.retriesOf op := by
  cases op with
  | handle now req replies =>
    obtain ⟨r, px', k, heq, hspend⟩ := handle_spends h now req replies
    have happly : px.apply (px.opOf (.handle now req replies)) = px' := (apply_handle heq).1
    refine ⟨?_, ?_⟩
    · rcases handle_cases h now req replies with
        ⟨_, heq⟩ | ⟨_, _, _, heq⟩ | ⟨_, _, _, _, _, _, heq⟩ <;>
        simp [opOf, apply, heq, arrive, finish, setPool, SessionOp.requests]
    · rw [happly, hspend.totalFailovers, retriesOf, heq]
      rfl
  | _ => exact ⟨rfl, rfl⟩

/-- The ledger of a session.  Over any session on any reachable proxy, whatever the replies,
the failovers, the health checks and the direct calls on the pools are:

* a backend has served one more for each attempt on it that a result of a request lists,
  and for each outcome that is recorded on it directly, and nothing else;
* `total_requests` counts the requests, and `total_failovers` the retries that the results
  list. -/
theorem session_ledger (h : px.Reachable) {ops : List SessionOp}
    (hv : sessionSystem.Valid px ops) :
    (∀ service pool i, px.pools service = some pool → i < pool.backends.length →
      (∀ op ∈ ops, op.Keeps service) →
      ∃ pool', (sessionSystem.exec px ops).pools service = some pool' ∧
        (pool'.backend i).served = (pool.backend i).served +
          sessionSystem.total (fun q op => q.countIn service (attemptOn i) op +
            op.records service i) px ops) ∧
      (sessionSystem.exec px ops).totalRequests =
        px.totalRequests + sessionSystem.total (fun _ op => op.requests) px ops ∧
      (sessionSystem.exec px ops).totalFailovers =
        px.totalFailovers + sessionSystem.total retriesOf px ops := by
  refine ⟨fun service pool i hpool hi hkeep => ?_, ?_, ?_⟩
  · obtain ⟨_, hexec, _⟩ := pools_exec h hpool hv hkeep
    refine ⟨_, hexec, ?_⟩
    rw [← servedBy_eq hpool, ← servedBy_eq hexec]
    refine System.Valid.counter (M := sessionSystem)
      (I := fun q => q.Reachable ∧ ∃ p, q.pools service = some p ∧ i < p.backends.length)
      (Q := SessionOp.Keeps service) (m := servedBy service i)
      (fun q op hq hok hk => ?_) ⟨h, pool, hpool, hi⟩ hv hkeep
    obtain ⟨hreach, p, hp, hlt⟩ := hq
    exact ⟨served_step hreach hp hlt hok hk, reachable_step hreach hok, _,
      (pools_step hreach hok hk hp).2, Nat.lt_of_lt_of_le hlt (Pool.length_le_exec _ _)⟩
  · exact System.Valid.counter (M := sessionSystem) (I := Proxy.Reachable)
      (Q := fun _ => True) (m := Proxy.totalRequests)
      (fun q op hq hok _ => ⟨(counters_step (poolsOk_of_reachable hq) op).1,
        reachable_step hq hok⟩) h hv (fun _ _ => trivial)
  · exact System.Valid.counter (M := sessionSystem) (I := Proxy.Reachable)
      (Q := fun _ => True) (m := Proxy.totalFailovers)
      (fun q op hq hok _ => ⟨(counters_step (poolsOk_of_reachable hq) op).2,
        reachable_step hq hok⟩) h hv (fun _ _ => trivial)

/-- A request that fails on the first backend and succeeds on the second, and a round of
health checks: the second backend has served one. -/
theorem session_ledger_two :
    ∃ pool', (sessionSystem.exec twoBackends
        [.handle 5 (.new .get "/")
          (fun j => if j = 0 then ⟨.error .timeout, 30⟩ else ⟨.ok (.new 200), 3⟩),
          .runHealthChecks 6 (fun _ _ => true)]).pools "api" = some pool' ∧
      (pool'.backend 1).served = 1 := by
  have hpool : twoBackends.pools "api" = some .twoBackends := rfl
  have hv : sessionSystem.Valid twoBackends
      [.handle 5 (.new .get "/")
        (fun j => if j = 0 then ⟨.error .timeout, 30⟩ else ⟨.ok (.new 200), 3⟩),
        .runHealthChecks 6 (fun _ _ => true)] := ⟨trivial, trivial, trivial⟩
  have hi : 1 < Pool.twoBackends.backends.length := by decide
  obtain ⟨pool', hpool', hserved⟩ := (session_ledger reachable_twoBackends hv).1 "api" _ 1
    hpool hi (by simp [SessionOp.Keeps])
  exact ⟨pool', hpool', hserved.trans (by decide)⟩

end Proxy

end Echofront
