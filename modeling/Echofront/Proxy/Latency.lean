import Echofront.Pool.Classes
import Echofront.Proxy.Recovery

/-!
# Latency behind the proxy

`Proxy::handle` records the latency of a reply on the backend that gave it, and polls its
pool before it selects.  So what the latency layer does to a backend follows from the
replies of the session.

`keepsFast_calls` reads the latencies that a session records on a pool off its replies, and
`fast_never_ejected` is the promise of the design for fast backends, over every session.
-/

namespace Echofront

open Lib

/-- A call of a session in which backend `i` of `service` is fast: the replies to the
requests that go there take at least `low`, those of `i` at most `high`, and so do the calls
that are made on the pool itself. -/
def SessionOp.KeepsFast (router : Router) (service : String) (low high i : Nat) :
    SessionOp → Prop
  | .poolCall name op => name = service → Pool.KeepsFast low high i op
  | .handle _ req replies => router.route req = some service →
    ∀ j, (replies j).isOk = true →
      low ≤ (replies j).latencyMs ∧ (j = i → (replies j).latencyMs ≤ high)
  | .setStickyHeader _ | .addPool _ | .runHealthChecks _ _ => True

namespace Proxy

variable {px : Proxy} {service : String} {low high i : Nat}

/-- The calls that a call of the session makes on the pool. -/
theorem keepsFast_callsOf {op : SessionOp}
    (hop : op.KeepsFast px.router service low high i) :
    ∀ call ∈ px.callsOf service op, Pool.KeepsFast low high i call := by
  refine forall_mem_callsOf ?_ (fun _ _ _ => trivial) ?_
  · rintro call rfl
    exact hop rfl
  · rintro now req replies rfl hroute
    refine ⟨trivial, fun call hcall => ?_⟩
    cases hcall with
    | record idx =>
      have hreply := hop hroute idx
      cases hok : (replies idx).outcome with
      | error e => simp [HandleLoop.record, callOf, hok, Pool.KeepsFast]
      | ok resp =>
        have hisOk : (replies idx).isOk = true := by simp [UpstreamReply.isOk, hok]
        simpa [HandleLoop.record, callOf, hok, Pool.KeepsFast] using hreply hisOk
    | _ => trivial

/-- The calls that a session makes on the pool. -/
theorem keepsFast_calls (h : px.Reachable) {ops : List SessionOp}
    (hv : sessionSystem.Valid px ops)
    (hops : ∀ op ∈ ops, op.KeepsFast px.router service low high i) :
    ∀ call ∈ sessionSystem.calls (callsOf service) px ops, Pool.KeepsFast low high i call :=
  forall_mem_calls h hv (fun op hop q hq => keepsFast_callsOf (by rw [hq]; exact hops op hop))

/-- A fast backend is never ejected for its latency, however slow the others are.  Take a
session on a pool that was set up in any way.  If all replies take at least `low`, those of
backend `i` at most `high`, and the factor is at least `high / low`, then the backend is
below the line in every state of the session: no window of it is ever open, and no latency
ejection is ever counted. -/
theorem fast_never_ejected (h : px.Reachable) {name : String} {strategy : Strategy}
    {health : HealthConfig} {setup : List Op}
    (hpool : px.pools service = some (poolSystem.exec (.new name strategy health) setup))
    (hsetup : poolSystem.Valid (.new name strategy health) setup)
    (hfast : ∀ op ∈ setup, Pool.KeepsFast low high i op) {ops : List SessionOp}
    (hv : sessionSystem.Valid px ops) (hkeep : ∀ op ∈ ops, op.Keeps service)
    (hops : ∀ op ∈ ops, op.KeepsFast px.router service low high i) :
    ∃ pool, (sessionSystem.exec px ops).pools service = some pool ∧
      (pool.backend i).overSince = none ∧ (pool.backend i).ewmaEjections = 0 ∧
      ∀ cfg, pool.ewma = some cfg → i < pool.backends.length →
        (pool.backend i).isOver cfg (pool.threshold.getD 0) = false := by
  obtain ⟨hcalls, hexec, _⟩ := pools_exec h hpool hv hkeep
  have hstart := (Pool.fastPool_new name strategy health).exec hsetup hfast
  have hend := hstart.exec hcalls (keepsFast_calls h hv hops)
  exact ⟨_, hexec, hend.backend.overSince, hend.backend.ewmaEjections,
    fun cfg hcfg hi => hend.isOver hcfg hi⟩

/-- A session with the latency layer and a window of 10 ms, in which backend 1 takes a
hundred times as long as backend 0. -/
def slowSecond : List SessionOp :=
  [.poolCall "api" (.enableEwma Pool.shortWindow),
    .handle 5 (.new .get "/") (fun j => ⟨.ok (.new 200), if j = 0 then 10 else 1000⟩),
    .handle 6 (.new .get "/") (fun j => ⟨.ok (.new 200), if j = 0 then 10 else 1000⟩),
    .handle 30 (.new .get "/") (fun j => ⟨.ok (.new 200), if j = 0 then 10 else 1000⟩)]

/-- Backend 0 is not ejected. -/
theorem fast_never_ejected_two :
    ∃ pool, (sessionSystem.exec twoBackends slowSecond).pools "api" = some pool ∧
      (pool.backend 0).ewmaEjections = 0 := by
  have hv : sessionSystem.Valid twoBackends slowSecond :=
    ⟨⟨.twoBackends, rfl, trivial⟩, trivial, trivial, trivial, trivial⟩
  have hkeep : ∀ op ∈ slowSecond, op.Keeps "api" := by simp [slowSecond, SessionOp.Keeps]
  have hreplies : ∀ j : Nat, (10 ≤ if j = 0 then 10 else 1000) ∧
      (j = 0 → (if j = 0 then 10 else 1000) ≤ 10) := by
    intro j
    split_ifs with hj <;> simp [hj]
  have hops : ∀ op ∈ slowSecond, op.KeepsFast twoBackends.router "api" 10 10 0 := by
    simp only [slowSecond, List.forall_mem_cons, SessionOp.KeepsFast]
    exact ⟨fun _ => ⟨Nat.le_refl 1, Nat.le_refl _⟩, fun _ j _ => hreplies j,
      fun _ j _ => hreplies j, fun _ j _ => hreplies j, by simp⟩
  have hpool : twoBackends.pools "api" = some (poolSystem.exec (.new "api" .roundRobin .default)
      [.addBackend (.new "a" 1 .default .default),
        .addBackend (.new "b" 2 .default .default)]) := rfl
  have hsetup : poolSystem.Valid (.new "api" .roundRobin .default)
      [.addBackend (.new "a" 1 .default .default),
        .addBackend (.new "b" 2 .default .default)] :=
    ⟨Backend.fresh_new _ _ _ _, Backend.fresh_new _ _ _ _, trivial⟩
  obtain ⟨pool, hpool', _, hcount, _⟩ := fast_never_ejected reachable_twoBackends hpool hsetup
    (by simp [Pool.KeepsFast]) hv hkeep hops
  exact ⟨pool, hpool', hcount⟩

end Proxy

end Echofront
