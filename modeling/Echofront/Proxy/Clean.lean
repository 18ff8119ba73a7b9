import Echofront.Pool.Clean
import Echofront.Proxy.Latency

/-!
# Clean backends behind the proxy

The proxy takes backends out of rotation on its own, for their failures, their probes and
their latency.  A backend that gives it no reason stays in rotation through any session, and
a request that goes to its service is answered, unless the retries run out before it gets
there.

`handle_of_answering` is what a request does with a candidate that answers, and
`clean_backend_serves` the statement about sessions.
-/

namespace Echofront

open Lib

/-- A call of a session that gives no reason to take backend `i` of `service` out of
rotation for a failure: the backend answers the requests and the probes that it gets. -/
def SessionOp.Spares (router : Router) (service : String) (i : Nat) : SessionOp → Prop
  | .poolCall name op => name = service → Pool.Spares i op
  | .handle _ req replies => router.route req = some service → (replies i).isOk = true
  | .runHealthChecks _ probe => probe service i = true
  | .setStickyHeader _ | .addPool _ => True

namespace Proxy

variable {px : Proxy} {service : String} {low high i : Nat}

/-- The calls that a call of the session makes on the pool. -/
theorem spares_callsOf {op : SessionOp} (hop : op.Spares px.router service i) :
    ∀ call ∈ px.callsOf service op, Pool.Spares i call := by
  refine forall_mem_callsOf ?_ ?_ ?_
  · rintro call rfl
    exact hop rfl
  · rintro now probe rfl
    exact hop
  · rintro now req replies rfl hroute
    refine ⟨trivial, fun call hcall => ?_⟩
    cases hcall with
    | record idx =>
      unfold HandleLoop.record
      cases hreply : (replies idx).outcome with
      | ok resp => simp [callOf, hreply, Pool.Spares]
      | error e =>
        simp only [callOf, hreply]
        -- a failure of the backend would be a reply that is not ok
        rintro rfl
        exact absurd ((UpstreamReply.isOk_eq_false hreply).symm.trans (hop hroute)) (by decide)
    | _ => trivial

/-- A request with a candidate that answers gets a response, or it has used up its retries
on others: they are more than the limit, or the bucket is left without another one. -/
theorem handle_of_answering (h : PoolsOk px) {req : Request} {pool : Pool}
    (hroute : px.router.route req = some service) (hpool : px.pools service = some pool)
    {now : Nat} (hi : i ∈ (pool.poll now).candidates now []) {replies : Nat → UpstreamReply}
    (hok : (replies i).isOk = true) :
    ∃ r px', px.handle now req replies = some (r, px') ∧
      ((∃ resp, r.response = .ok resp) ∨
        (r.response = .error (.allAttemptsFailed r.attempts.length) ∧
          (px.budget.maxRetriesPerRequest < r.attempts.length ∨
            px'.budget.tokensMilli < px.budget.cfg.retryCostMilli))) := by
  obtain ⟨response, s₁, s, hh, heq⟩ := handle_of_pool h hroute hpool now replies
  have hl := hh.looped
  refine ⟨_, _, heq, ?_⟩
  cases hh.last with
  | unselected hall =>
    obtain ⟨e, he⟩ := hl.failed i (hall i hi)
    exact absurd ((UpstreamReply.isOk_eq_false he).symm.trans hok) (by decide)
  | @succeeded idx resp s hsel hreply ha hbudget => exact Or.inl ⟨resp, rfl⟩
  | @exhausted idx e s hsel hreply ha hdenied =>
    have hlen := ha.attempts_length hl
    refine Or.inr ⟨by simp only [looped, hlen], ?_⟩
    rcases hdenied with ⟨hlim, _⟩ | ⟨hdeny, hbudget⟩
    · refine Or.inl ?_
      show px.budget.cfg.maxRetriesPerRequest < s.attempts.length
      rw [hlen]
      exact hlim
    · refine Or.inr ?_
      show s.budget.tokensMilli < px.budget.cfg.retryCostMilli
      have hcfg : s₁.budget.cfg = px.budget.cfg := by
        rw [hl.budget, RetryBudget.spend_cfg]
        rfl
      rcases s₁.budget.tryRetry_cases with ⟨_, hgrant⟩ | ⟨hlt, hrefuse⟩
      · exact absurd (hdeny.symm.trans (congrArg Prod.fst hgrant)) Bool.noConfusion
      · rw [hbudget, hrefuse, ← hcfg]
        exact hlt

/-- A clean backend serves.  Take a pool that was set up in any way, and a session in which
backend `i` answers its requests and its probes and is fast.  If the backend was healthy at
the start, then in every state of the session its breaker has never tripped and no ejection
of it is counted, it is available at every time at its full weight, and a request to the
service that it would answer gets a response, unless its retries run out on other backends:
the proxy never says that there is no healthy upstream. -/
theorem clean_backend_serves (h : px.Reachable) {name : String} {strategy : Strategy}
    {health : HealthConfig} {setup : List Op}
    (hpool : px.pools service = some (poolSystem.exec (.new name strategy health) setup))
    (hsetup : poolSystem.Valid (.new name strategy health) setup)
    (hclean : ∀ op ∈ setup, Pool.KeepsFast low high i op ∧ Pool.Spares i op)
    (hi : i < (poolSystem.exec (.new name strategy health) setup).backends.length)
    (hhealthy : ((poolSystem.exec (.new name strategy health) setup).backend i).healthy = true)
    {ops : List SessionOp} (hv : sessionSystem.Valid px ops)
    (hkeep : ∀ op ∈ ops, op.Keeps service)
    (hops : ∀ op ∈ ops, op.KeepsFast px.router service low high i ∧
      op.Spares px.router service i) :
    ∃ pool, (sessionSystem.exec px ops).pools service = some pool ∧
      (pool.backend i).breaker.trips = 0 ∧ (pool.backend i).ejections = 0 ∧
      (pool.backend i).ewmaEjections = 0 ∧
      (∀ t, ((pool.poll t).backend i).isAvailable t = true ∧
        ((pool.poll t).backend i).rampPercent = 100) ∧
      ∀ now req replies, px.router.route req = some service → (replies i).isOk = true →
        (pool.strategy = .weighted → (pool.backend i).weight ≠ 0) →
        ∃ r px', (sessionSystem.exec px ops).handle now req replies = some (r, px') ∧
          ((∃ resp, r.response = .ok resp) ∨
            (r.response = .error (.allAttemptsFailed r.attempts.length) ∧
              ((sessionSystem.exec px ops).budget.maxRetriesPerRequest < r.attempts.length ∨
                px'.budget.tokensMilli <
                  (sessionSystem.exec px ops).budget.cfg.retryCostMilli))) := by
  obtain ⟨hcalls, hexec, _⟩ := pools_exec h hpool hv hkeep
  have hspares : ∀ call ∈ sessionSystem.calls (callsOf service) px ops, Pool.Spares i call :=
    forall_mem_calls h hv
      (fun op hop q hq => spares_callsOf (by rw [hq]; exact (hops op hop).2))
  have hfast := keepsFast_calls h hv (fun op hop => (hops op hop).1)
  have hstart : Pool.CleanPool low high i (poolSystem.exec (.new name strategy health) setup) :=
    (Pool.CleanPool.new name strategy health).exec hsetup hclean
  have hend := hstart.exec hcalls (fun call hc => ⟨hfast call hc, hspares call hc⟩)
  have hhealthy' := Pool.healthy_exec hi hhealthy hcalls
    (fun now probe hmem => hspares _ hmem)
  have hlt := Nat.lt_of_lt_of_le hi
    (Pool.length_le_exec _ (sessionSystem.calls (callsOf service) px ops))
  have hav := hend.isAvailable_poll hlt hhealthy'
  refine ⟨_, hexec, hend.backend.trips, hend.backend.ejections,
    hend.fast.backend.ewmaEjections, hav, fun now req replies hroute hok hweight => ?_⟩
  have hmem := Pool.mem_candidates_of_isAvailable hlt (hav now).1 hweight
  exact handle_of_answering (poolsOk_of_reachable (reachable_exec h hv))
    (by rw [router_exec h hv]; exact hroute) hexec hmem hok

/-- Backend 0 answers while backend 1 fails, and a later request is answered although
backend 1 fails again. -/
theorem clean_backend_serves_two :
    ∃ r px', (sessionSystem.exec twoBackends
        [.handle 5 (.new .get "/")
          (fun j => if j = 0 then ⟨.ok (.new 200), 3⟩ else ⟨.error .timeout, 30⟩)]).handle 9
        (.new .get "/")
        (fun j => if j = 0 then ⟨.ok (.new 200), 3⟩ else ⟨.error .timeout, 30⟩) =
          some (r, px') ∧
      ((∃ resp, r.response = .ok resp) ∨
        (r.response = .error (.allAttemptsFailed r.attempts.length) ∧
          (2 < r.attempts.length ∨ px'.budget.tokensMilli < 1000))) := by
  have hreply : ∀ j : Nat, ∀ r : UpstreamReply,
      r = (if j = 0 then ⟨.ok (.new 200), 3⟩ else ⟨.error .timeout, 30⟩) →
      r.isOk = true → j = 0 ∧ r.latencyMs = 3 := by
    rintro j r rfl hok
    by_cases hj : j = 0
    · simp [hj]
    · simp [hj, UpstreamReply.isOk] at hok
  have hv : sessionSystem.Valid twoBackends [.handle 5 (.new .get "/")
      (fun j => if j = 0 then ⟨.ok (.new 200), 3⟩ else ⟨.error .timeout, 30⟩)] :=
    ⟨trivial, trivial⟩
  have hpool : twoBackends.pools "api" = some (poolSystem.exec (.new "api" .roundRobin .default)
      [.addBackend (.new "a" 1 .default .default),
        .addBackend (.new "b" 2 .default .default)]) := rfl
  have hsetup : poolSystem.Valid (.new "api" .roundRobin .default)
      [.addBackend (.new "a" 1 .default .default),
        .addBackend (.new "b" 2 .default .default)] :=
    ⟨Backend.fresh_new _ _ _ _, Backend.fresh_new _ _ _ _, trivial⟩
  have hops : ∀ op ∈ [SessionOp.handle 5 (.new .get "/")
      (fun j => if j = 0 then ⟨.ok (.new 200), 3⟩ else ⟨.error .timeout, 30⟩)],
      op.KeepsFast twoBackends.router "api" 3 3 0 ∧ op.Spares twoBackends.router "api" 0 := by
    refine List.forall_mem_singleton.mpr ⟨fun _ j hok => ?_, fun _ => rfl⟩
    obtain ⟨_, hlat⟩ := hreply j _ rfl hok
    exact ⟨Nat.le_of_eq hlat.symm, fun _ => Nat.le_of_eq hlat⟩
  obtain ⟨pool, hpool', _, _, _, _, hserves⟩ := clean_backend_serves reachable_twoBackends
    hpool hsetup (by simp [Pool.KeepsFast, Pool.Spares]) (by decide) rfl hv
    (by simp [SessionOp.Keeps]) hops
  have hrr : pool.strategy = .roundRobin := by
    rw [← Option.some.inj hpool']
    decide
  exact hserves 9 (.new .get "/") _ (by decide) rfl
    (fun hs => absurd (hrr.symm.trans hs) (by decide))

end Proxy

end Echofront
