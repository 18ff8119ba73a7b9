import Echofront.Pool.Recovery
import Echofront.Proxy.Failover
import Echofront.Proxy.Outage

/-!
# Recovery through the proxy

When the upstream of a backend answers again, the proxy sends it requests again.

`Calm` says what a session may do while a backend recovers, and `recovers` when the
backend is back: a cooldown and an ejection after its last failure, and, if its probes
had failed, after one good probe more than the threshold.
-/

namespace Echofront

open Lib

namespace Proxy

/-- A call of a session that records no failure of backend `i` of `service` after `t₀`,
and whose probes find it live. -/
def Calm (service : String) (i t₀ : Nat) (px : Proxy) : SessionOp → Prop
  | .poolCall name op => name = service → Pool.QuietOp i t₀ op ∧
      ∀ now probe, op = .runHealthChecks now probe → probe i = true
  | .handle now req replies =>
    px.router.route req = some service → t₀ < now → (replies i).isOk = true
  | .runHealthChecks _ probe => probe service i = true
  | .setStickyHeader _ | .addPool _ => True

/-- What a calm call makes the pool do. -/
theorem Calm.callsOf {service : String} {i t₀ : Nat} {px : Proxy} {op : SessionOp}
    (h : px.Calm service i t₀ op) : ∀ call ∈ px.callsOf service op,
      Pool.QuietOp i t₀ call ∧
        ∀ now probe, call = .runHealthChecks now probe → probe i = true := by
  refine forall_mem_callsOf ?_ ?_ ?_
  · rintro call rfl
    exact h rfl
  · rintro now probe rfl
    refine ⟨trivial, fun now' probe' heq => ?_⟩
    obtain ⟨_, rfl⟩ := Op.runHealthChecks.inj heq
    exact h
  · rintro now req replies rfl hroute
    refine ⟨⟨trivial, fun _ _ heq => by simp at heq⟩, fun call hcall => ?_⟩
    cases hcall with
    | select tried => exact ⟨trivial, fun _ _ heq => by simp at heq⟩
    | begin idx => exact ⟨trivial, fun _ _ heq => by simp at heq⟩
    | endCall idx => exact ⟨trivial, fun _ _ heq => by simp at heq⟩
    | record idx =>
      unfold HandleLoop.record
      cases hreply : (replies idx).outcome with
      | ok resp => simp [callOf, hreply, Pool.QuietOp]
      | error e =>
        simp only [callOf, hreply]
        refine ⟨fun hidx => ?_, fun _ _ heq => by simp at heq⟩
        -- a failure that is recorded after `t₀` would be a reply that is not ok
        by_contra hlate
        have hok := h hroute (Nat.lt_of_not_le hlate)
        rw [← hidx, UpstreamReply.isOk_eq_false hreply] at hok
        exact absurd hok (by decide)

/-- The time of a round of health checks. -/
def checkTime : SessionOp → Option Nat
  | .runHealthChecks now _ => some now
  | _ => none

/-- A round of health checks checks every pool. -/
theorem checkTime_sublist (service : String) (px : Proxy) (ops : List SessionOp) :
    (ops.filterMap checkTime).Sublist
      ((sessionSystem.calls (callsOf service) px ops).filterMap Pool.checkTime) := by
  induction ops generalizing px with
  | nil => exact List.Sublist.refl _
  | cons op ops ih =>
    rw [System.calls_cons, List.filterMap_append]
    cases op with
    | runHealthChecks now probe => exact (ih _).cons_cons now
    | _ => exact (ih _).trans (List.sublist_append_right _ _)

/-- With a candidate and replies that are ok a request succeeds at its first attempt. -/
theorem handle_of_candidate {px : Proxy} (h : PoolsOk px) {req : Request}
    {service : String} {pool : Pool} (hroute : px.router.route req = some service)
    (hpool : px.pools service = some pool) {now i : Nat}
    (hi : i ∈ (pool.poll now).candidates now []) {replies : Nat → UpstreamReply}
    (hok : ∀ j, (replies j).isOk = true) :
    ∃ r px', px.handle now req replies = some (r, px') ∧ r.attempts.length = 1 ∧
      ∃ resp, r.response = .ok resp := by
  obtain ⟨response, s₁, s, hh, heq⟩ := handle_of_pool h hroute hpool now replies
  have hno : ∀ {j e}, (replies j).outcome = .error e → False := by
    intro j e hj
    exact absurd ((UpstreamReply.isOk_eq_false hj).symm.trans (hok j)) (by decide)
  have htried : s₁.tried = [] := by
    refine List.eq_nil_iff_forall_not_mem.mpr (fun j hj => ?_)
    obtain ⟨e, he⟩ := hh.looped.failed j hj
    exact hno he
  refine ⟨_, _, heq, ?_⟩
  cases hh.last with
  | unselected hall =>
    have hmem := hall i hi
    rw [htried] at hmem
    exact absurd hmem (by simp)
  | succeeded hsel hreply ha hbudget =>
    refine ⟨?_, _, rfl⟩
    have hlen := ha.attempts_length hh.looped
    rw [htried] at hlen
    exact hlen
  | exhausted hsel hreply ha hdenied => exact (hno hreply).elim

/-- A backend comes back.  Whatever happened until `t₀`, let no failure of the backend be
recorded after `t₀` and its probes be good: from a cooldown and an ejection after `t₀` on
the backend is available, if it was healthy or if there were more rounds of health checks
than the threshold, each a probe interval after the one before.  A request that finds it
so is answered at its first attempt, if the upstreams answer. -/
theorem recovers {px : Proxy} (h : px.Reachable) {service : String} {pool : Pool}
    (hpool : px.pools service = some pool) {i : Nat} (hi : i < pool.backends.length)
    {t₀ : Nat} (hquiet : pool.QuietSince i t₀)
    (hu32 : pool.health.healthyProbeThreshold ≤ u32Max) {ops : List SessionOp}
    (hv : sessionSystem.Valid px ops) (hkeep : ∀ op ∈ ops, op.Keeps service)
    (hn : Nondecreasing SessionOp.time ops)
    (hstart : ∀ l, (pool.backend i).lastProbe = some l →
      ∀ op ∈ ops, ∀ s, op.time = some s → l ≤ s)
    (hcalm : sessionSystem.Always (Calm service i t₀) px ops) {ts : List Nat}
    (hts : ts.Sublist (ops.filterMap checkTime))
    (hspaced : ts.Pairwise (fun s t => s + pool.health.probeIntervalMs ≤ t))
    (hhealthy : (pool.backend i).healthy = true ∨
      max 1 pool.health.healthyProbeThreshold < ts.length)
    {pool' : Pool} (hpool' : (sessionSystem.exec px ops).pools service = some pool')
    (hfree : (pool'.backend i).inFlight < max (pool.backend i).breaker.cfg.halfOpenMaxCalls 1)
    {T : Nat} (hcool : t₀ + (pool.backend i).breaker.cfg.cooldownMs ≤ T)
    (hexp : t₀ + pool.health.ejectionBaseMs ≤ T) :
    ((pool'.poll T).backend i).isAvailable T = true ∧
    ∀ req replies, px.router.route req = some service →
      (pool'.strategy = .weighted → (pool'.backend i).weight ≠ 0) →
      (∀ j, (replies j).isOk = true) →
      ∃ r px', (sessionSystem.exec px ops).handle T req replies = some (r, px') ∧
        r.attempts.length = 1 ∧ ∃ resp, r.response = .ok resp := by
  obtain ⟨hvalid, hexec, htimed⟩ := pools_exec h hpool hv hkeep
  have hcalls := hcalm.forall_mem_calls (f := callsOf service) (fun _ _ hc => hc.callsOf)
  have htimes : ∀ l, (pool.backend i).lastProbe = some l →
      ∀ call ∈ sessionSystem.calls (callsOf service) px ops, ∀ s, call.time = some s → l ≤ s :=
    fun l hl => forall_time_calls (hstart l hl)
  have hlive : ∀ now probe,
      Op.runHealthChecks now probe ∈ sessionSystem.calls (callsOf service) px ops →
      probe i = true := fun now probe hmem => (hcalls _ hmem).2 now probe rfl
  have hsub := hts.trans (checkTime_sublist service px ops)
  have htimed := htimed hn
  have hreach := poolsOk_of_reachable h service pool hpool
  generalize sessionSystem.calls (callsOf service) px ops = calls at *
  obtain rfl : pool' = poolSystem.exec pool calls := Option.some.inj (hpool'.symm.trans hexec)
  have hhealth := Pool.health_exec pool calls
  have hcfg := Pool.breaker_cfg_exec hi calls
  have hquiet' := hquiet.exec hvalid (fun call hc => (hcalls call hc).1)
  have hhealthy' : ((poolSystem.exec pool calls).backend i).healthy = true := by
    rcases hhealthy with hh | hlen
    · exact Pool.healthy_exec hi hh hvalid hlive
    · exact Pool.healthy_of_checks hreach hi hu32 hvalid htimed htimes hlive hsub hspaced hlen
  have hlt := Nat.lt_of_lt_of_le hi (pool.length_le_exec calls)
  have hav := hquiet'.isAvailable (T := T) hlt hhealthy' (by rw [hcfg]; exact hfree)
    (by rw [hcfg]; exact hcool) (by rw [hhealth]; exact hexp)
  refine ⟨hav, fun req replies hroute hweight hok => ?_⟩
  have hmem := Pool.mem_candidates_of_isAvailable hlt hav hweight
  exact handle_of_candidate (poolsOk_of_reachable (reachable_exec h hv))
    (by rw [router_exec h hv]; exact hroute) hexec hmem hok

/-- Both backends fail at 10, and at 5010 the next request succeeds at once. -/
theorem recovers_two :
    ∃ r px', (sessionSystem.exec fragileTwo
        [.handle 10 (.new .get "/") (fun _ => ⟨.error .timeout, 7⟩)]).handle 5010
        (.new .get "/") (fun _ => ⟨.ok (.new 200), 3⟩) = some (r, px') ∧
      r.attempts.length = 1 ∧ ∃ resp, r.response = .ok resp := by
  have hroute : fragileTwo.router.route (.new .get "/") = some "api" := by decide
  have hpool : fragileTwo.pools "api" = some .fragileTwo := rfl
  have hquiet : Pool.fragileTwo.QuietSince 0 10 := .of_fresh rfl (Backend.fresh_new _ _ _ _)
  have hv : sessionSystem.Valid fragileTwo
      [.handle 10 (.new .get "/") (fun _ => ⟨.error .timeout, 7⟩)] := ⟨trivial, trivial⟩
  have hback := recovers (i := 0) (T := 5010) reachable_fragileTwo hpool (by decide) hquiet
    (by decide) hv (by simp [SessionOp.Keeps]) (by decide)
    (fun l hl => absurd hl (Option.some_ne_none l).symm)
    ⟨fun _ hlt => absurd hlt (by decide), trivial⟩ (List.nil_sublist _) List.Pairwise.nil
    (Or.inl rfl) rfl (by decide) (by decide) (by decide)
  exact hback.2 (.new .get "/") _ hroute (fun hs => absurd hs (by decide)) (fun _ => rfl)

end Proxy

end Echofront
