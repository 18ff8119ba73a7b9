import Echofront.Pool.LeastConn
import Echofront.Proxy.Affinity

/-!
# Least connections behind the proxy

`Proxy::handle` begins and ends a call within one request, so the counters of calls in
flight show only what is begun and ended on the pools directly.

* `failoverOrder_leastConn`: the order of failover is sorted by the counter, and by the
  index where the counters agree.
* `sameLoad_exec`: over a session the counters are what the direct calls alone make of
  them.

`least_conn_order` puts these together.  With no call in flight it says that each request
asks the available backends from the lowest index up: requests alone are not balanced.

All of this needs the counters below `u32::MAX`, where the attempt of a request makes its
counter wrap to zero and its end leaves it there.
-/

namespace Echofront

open Lib

namespace Pool

/-- Backend `i` comes before `j` by least connections. -/
def Lighter (load : Nat → Nat) (i j : Nat) : Prop :=
  load i < load j ∨ load i = load j ∧ i < j

/-- Under the least connections the order of failover is sorted. -/
theorem failoverOrder_leastConn {p : Pool} (hs : p.strategy = .leastConnections) (now : Nat)
    (key : Option String) (n : Nat) (tried : List Nat) :
    (p.failoverOrder now key n tried).Pairwise (Lighter fun i => (p.backend i).inFlight) ∧
      ∀ j ∈ p.failoverOrder now key n tried, j ∈ p.availableIndices now tried := by
  induction n generalizing tried with
  | zero => simp [failoverOrder]
  | succ n ih =>
    cases hsel : (p.select now key tried).1 with
    | none => simp [failoverOrder_of_none hsel]
    | some i =>
      have hleast := ((select_leastConn hs now key tried).2 i).mp hsel
      have hpool : (p.select now key tried).2 = p := by
        rw [select_of_available key (List.ne_nil_of_mem hleast.1)]
        simp only [hs]
      obtain ⟨hsorted, hmem⟩ := ih (tried ++ [i])
      have hrest : ∀ j ∈ p.failoverOrder now key n (tried ++ [i]),
          j ∈ p.availableIndices now tried ∧ j ≠ i := by
        intro j hj
        obtain ⟨hlt, hnot, hav⟩ := mem_availableIndices.mp (hmem j hj)
        simp only [List.mem_append, List.mem_singleton, not_or] at hnot
        exact ⟨mem_availableIndices.mpr ⟨hlt, hnot.1, hav⟩, hnot.2⟩
      rw [failoverOrder_of_some hsel, hpool]
      refine ⟨List.pairwise_cons.mpr ⟨fun j hj => ?_, hsorted⟩, fun j hj => ?_⟩
      · obtain ⟨hj, hne⟩ := hrest j hj
        rcases hleast.2 j hj with hlt | ⟨heq, hle⟩
        · exact Or.inl hlt
        · exact Or.inr ⟨heq, Nat.lt_of_le_of_ne hle (Ne.symm hne)⟩
      · rcases List.mem_cons.mp hj with rfl | hj
        · exact hleast.1
        · exact (hrest j hj).1

/-! ## Equal counters -/

/-- The pools have as many backends, with equal counters of calls in flight. -/
structure SameLoad (p q : Pool) : Prop where
  length : p.backends.length = q.backends.length
  inFlight : ∀ i, (p.backend i).inFlight = (q.backend i).inFlight

theorem SameLoad.apply {p q : Pool} (h : SameLoad p q) (op : Op) :
    SameLoad (p.apply op) (q.apply op) := by
  have hlength : (p.apply op).backends.length = (q.apply op).backends.length := by
    rw [length_apply, length_apply, h.length]
  refine ⟨hlength, fun i => ?_⟩
  by_cases hi : i < p.backends.length
  · rw [backend_apply_of_lt hi, backend_apply_of_lt (h.length ▸ hi), effect_inFlight,
      effect_inFlight, h.inFlight i]
  · have hge := Nat.le_of_not_lt hi
    by_cases hadd : ∃ b, op = .addBackend b
    · obtain ⟨b, rfl⟩ := hadd
      have hgeq : q.backends.length ≤ i := h.length ▸ hge
      show ((p.backends ++ [b]).getD i default).inFlight =
        ((q.backends ++ [b]).getD i default).inFlight
      rw [List.getD_eq_getElem?_getD, List.getD_eq_getElem?_getD,
        List.getElem?_append_right hge, List.getElem?_append_right hgeq, h.length]
    · have hlen := p.length_apply_of_ne (fun b hb => hadd ⟨b, hb⟩)
      have hnone : (p.apply op).backends.length ≤ i := hlen ▸ hge
      rw [backend_of_ge hnone, backend_of_ge (hlength ▸ hnone)]

theorem SameLoad.trans {p q r : Pool} (hpq : SameLoad p q) (hqr : SameLoad q r) :
    SameLoad p r :=
  ⟨hpq.length.trans hqr.length, fun i => (hpq.inFlight i).trans (hqr.inFlight i)⟩

/-- Only the calls that begin and end calls change the counters. -/
theorem sameLoad_apply (p : Pool) (op : Op) (hadd : ∀ b, op ≠ .addBackend b)
    (hop : ∀ i, begins i op = false ∧ ends i op = false) : SameLoad (p.apply op) p := by
  have hlen := p.length_apply_of_ne hadd
  refine ⟨hlen, fun i => ?_⟩
  by_cases hi : i < p.backends.length
  · rw [backend_apply_of_lt hi, effect_inFlight, (hop i).1, (hop i).2]
    rfl
  · have hge := Nat.le_of_not_lt hi
    rw [backend_of_ge hge, backend_of_ge (hlen ▸ hge)]

theorem SameLoad.exec {p q : Pool} (h : SameLoad p q) (ops : List Op) :
    SameLoad (poolSystem.exec p ops) (poolSystem.exec q ops) := by
  induction ops generalizing p q with
  | nil => exact h
  | cons op ops ih => exact ih (h.apply op)

end Pool

namespace Proxy

open HandleLoop (failingHead)

/-- The calls of a session that its caller makes on the pool of `service`. -/
def directCalls (service : String) : SessionOp → List Op
  | .poolCall name op => if name = service then [op] else []
  | _ => []

/-- The direct calls among `ops` keep every counter of `pool` below `u32::MAX`, so that
at any moment of the session one more call can begin. -/
def RoomToCall (service : String) (pool : Pool) (ops : List SessionOp) : Prop :=
  ∀ pre, pre <+: ops → ∀ i,
    ((poolSystem.exec pool (pre.flatMap (directCalls service))).backend i).inFlight < u32Max

theorem RoomToCall.tail {service : String} {pool : Pool} {op : SessionOp}
    {ops : List SessionOp} (h : RoomToCall service pool (op :: ops)) :
    RoomToCall service (poolSystem.exec pool (directCalls service op)) ops := by
  intro pre hpre i
  have hcons := h (op :: pre) ((List.cons_prefix_cons).mpr ⟨rfl, hpre⟩) i
  rwa [List.flatMap_cons, System.exec_append] at hcons

/-- A request leaves the counters of its pool as they were. -/
theorem sameLoad_handleCalls {px : Proxy} (h : PoolsOk px) {service : String} {pool : Pool}
    (hpool : px.pools service = some pool) (hroom : ∀ i, (pool.backend i).inFlight < u32Max)
    (now : Nat) (req : Request) (replies : Nat → UpstreamReply) :
    Pool.SameLoad (poolSystem.exec pool (px.handleCalls service now req replies)) pool := by
  by_cases hroute : px.router.route req = some service
  · obtain ⟨response, s, _, heq, _, hexec⟩ := handle_calls h hroute hpool now replies
    obtain ⟨response', s₁, s', hh, heq'⟩ := handle_of_pool h hroute hpool now replies
    have hasked := (hh.last.traced hh.looped).pool
    have hpools : s.pool = s'.pool := by
      have hfinish := (Prod.mk.inj (Option.some.inj (heq.symm.trans heq'))).2
      have hget := congrArg (fun q => q.pools service) hfinish
      simpa [finish, setPool] using hget
    have hpoll : Pool.SameLoad (pool.poll now) pool :=
      pool.sameLoad_apply (.poll now) (by simp) (fun _ => ⟨rfl, rfl⟩)
    rw [← hexec, hpools]
    refine Pool.SameLoad.trans ⟨hasked.length, fun i => ?_⟩ hpoll
    by_cases hi : i ∈ s'.attempts.map Attempt.backend
    · -- the attempt began a call and ended it, with room for it in the counter
      rw [(hasked.tried i hi).1, incr32_sub_one_eq_iff]
      exact (hpoll.inFlight i).trans_lt (hroom i)
    · exact (Asked.fields_of_eraseWeight (hasked.untried i hi)).1
  · rw [handleCalls_of_not_routed hroute]
    exact ⟨rfl, fun _ => rfl⟩

/-- One call of a session and the direct calls in it. -/
theorem sameLoad_step {px : Proxy} (h : px.Reachable) {service : String} {pool q : Pool}
    (hpool : px.pools service = some pool) (hsame : Pool.SameLoad pool q)
    (hroom : ∀ i, (q.backend i).inFlight < u32Max) (op : SessionOp) :
    Pool.SameLoad (poolSystem.exec pool (px.callsOf service op))
      (poolSystem.exec q (directCalls service op)) := by
  cases op with
  | setStickyHeader header => exact hsame
  | addPool p => exact hsame
  | poolCall name op => exact hsame.exec _
  | handle now req replies =>
    have hroom' : ∀ i, (pool.backend i).inFlight < u32Max := fun i =>
      (hsame.inFlight i).trans_lt (hroom i)
    exact (sameLoad_handleCalls (poolsOk_of_reachable h) hpool hroom' now req replies).trans hsame
  | runHealthChecks now probe =>
    exact (pool.sameLoad_apply (.runHealthChecks now (probe service)) (by simp)
      (fun _ => ⟨rfl, rfl⟩)).trans hsame

/-- Over a session the counters of a pool are what the direct calls make of them. -/
theorem sameLoad_exec {px : Proxy} (h : px.Reachable) {service : String} {pool q : Pool}
    (hpool : px.pools service = some pool) (hsame : Pool.SameLoad pool q)
    {ops : List SessionOp} (hv : sessionSystem.Valid px ops)
    (hkeep : ∀ op ∈ ops, op.Keeps service) (hroom : RoomToCall service q ops) :
    Pool.SameLoad (poolSystem.exec pool (sessionSystem.calls (callsOf service) px ops))
      (poolSystem.exec q (ops.flatMap (directCalls service))) := by
  induction ops generalizing px pool q with
  | nil => exact hsame
  | cons op ops ih =>
    obtain ⟨_, hnext⟩ := pools_step h hv.1 (hkeep op (by simp)) hpool
    have hreach := reachable_step h hv.1
    have hsame' := sameLoad_step h hpool hsame (hroom [] List.nil_prefix) op
    have hrest := ih hreach hnext hsame' hv.2 (fun o ho => hkeep o (by simp [ho])) hroom.tail
    rw [List.flatMap_cons, System.exec_append]
    show Pool.SameLoad (poolSystem.exec pool (px.callsOf service op ++ _)) _
    rw [System.exec_append]
    exact hrest

/-- Under the least connections a request goes down its candidates sorted by the calls
in flight, and by the index where these agree.  The calls in flight are those that the
session has begun and not ended on the pool itself: no request counts, neither a finished
one nor the attempts of the request before.  So without such calls every request asks
the available backends from the lowest index up.  The calls on the pool itself have to
leave each counter below `u32::MAX`. -/
theorem least_conn_order {px : Proxy} (h : px.Reachable) {service : String} {pool : Pool}
    (hpool : px.pools service = some pool) {ops : List SessionOp}
    (hv : sessionSystem.Valid px ops) (hkeep : ∀ op ∈ ops, op.Keeps service)
    (hroom : RoomToCall service pool ops) {pool' : Pool}
    (hpool' : (sessionSystem.exec px ops).pools service = some pool')
    (hs : pool'.strategy = .leastConnections) {req : Request}
    (hroute : px.router.route req = some service) (now : Nat)
    (replies : Nat → UpstreamReply) :
    let load := fun i =>
      ((poolSystem.exec pool (ops.flatMap (directCalls service))).backend i).inFlight
    ∃ order, order.Perm ((pool'.poll now).candidates now []) ∧
      order.Pairwise (Pool.Lighter load) ∧
      ((∀ i, load i = 0) → order = (pool'.poll now).candidates now []) ∧
      ∃ r px', (sessionSystem.exec px ops).handle now req replies = some (r, px') ∧
        r.attempts.map Attempt.backend = order.take
          (min (failingHead replies order) (sessionSystem.exec px ops).retriesAllowed + 1) := by
  intro load
  have hp := poolsOk_of_reachable (reachable_exec h hv)
  have hroute' : (sessionSystem.exec px ops).router.route req = some service := by
    rwa [router_exec h hv]
  obtain ⟨_, hexec, _⟩ := pools_exec h hpool hv hkeep
  obtain rfl : pool' = poolSystem.exec pool (sessionSystem.calls (callsOf service) px ops) :=
    Option.some.inj (hpool'.symm.trans hexec)
  generalize hcalls : poolSystem.exec pool
    (sessionSystem.calls (callsOf service) px ops) = pool' at *
  have hsame : Pool.SameLoad pool' (poolSystem.exec pool (ops.flatMap (directCalls service))) :=
    hcalls ▸ sameLoad_exec h hpool ⟨rfl, fun _ => rfl⟩ hv hkeep hroom
  have hpoll : Pool.SameLoad (pool'.poll now) pool' :=
    pool'.sameLoad_apply (.poll now) (by simp) (fun _ => ⟨rfl, rfl⟩)
  have hload : (fun i => ((pool'.poll now).backend i).inFlight) = load :=
    funext (hpoll.trans hsame).inFlight
  obtain ⟨r, px', heq, hplan⟩ := handle_planned hp hroute' hpool' now replies
  have hperm := (sessionSystem.exec px ops).failoverOrder_perm (hp service pool' hpool') now req
  have hsorted := (Pool.failoverOrder_leastConn (p := pool'.poll now) hs now
    ((sessionSystem.exec px ops).stickyKey req) (pool'.backends.length + 1) []).1
  rw [hload] at hsorted
  refine ⟨_, hperm, hsorted, fun hzero => ?_, r, px', heq, hplan.asked⟩
  -- two ascending lists of the same backends
  have hascending : ((sessionSystem.exec px ops).failoverOrder pool' now req).Pairwise
      (· < ·) := hsorted.imp (fun hij => by
        rcases hij with hlt | ⟨_, hlt⟩
        · exact absurd hlt (by simp [hzero])
        · exact hlt)
  have hcand : (pool'.poll now).candidates now [] = (pool'.poll now).availableIndices now [] := by
    have hs' : (pool'.poll now).strategy = .leastConnections := hs
    simp only [Pool.candidates, hs']
  refine hperm.eq_of_pairwise (fun a b _ _ hab hba => absurd hab (Nat.lt_asymm hba)) hascending ?_
  rw [hcand]
  exact (pool'.poll now).pairwise_availableIndices now []

/-- After a request that fails on both backends the next one starts with the first
again, if no call is in flight. -/
theorem least_conn_order_two :
    let ops : List SessionOp := [.poolCall "api" (.setStrategy .leastConnections),
      .handle 5 (.new .get "/") (fun _ => ⟨.error .timeout, 7⟩)]
    ∃ r px', (sessionSystem.exec twoBackends ops).handle 9 (.new .get "/")
        (fun _ => ⟨.ok (.new 200), 3⟩) = some (r, px') ∧
      r.attempts.map Attempt.backend = [0] := by
  intro ops
  have hv : sessionSystem.Valid twoBackends ops :=
    ⟨⟨.twoBackends, rfl, trivial⟩, trivial, trivial⟩
  have hkeep : ∀ op ∈ ops, op.Keeps "api" := by simp [ops, SessionOp.Keeps]
  have hpool : twoBackends.pools "api" = some .twoBackends := rfl
  have hroute : twoBackends.router.route (.new .get "/") = some "api" := by decide
  obtain ⟨_, hpool', _⟩ := pools_exec reachable_twoBackends hpool hv hkeep
  have hs : (poolSystem.exec .twoBackends
      (sessionSystem.calls (callsOf "api") twoBackends ops)).strategy = .leastConnections := by
    decide
  have hzero : ∀ pre, pre <+: ops → ∀ i, ((poolSystem.exec .twoBackends
      (pre.flatMap (directCalls "api"))).backend i).inFlight = 0 := by
    intro pre hpre i
    have hmem : pre ∈ ops.inits := (List.mem_inits pre ops).mpr hpre
    simp only [ops, List.inits_cons, List.inits.eq_1, List.map, List.mem_cons,
      List.not_mem_nil, or_false] at hmem
    rcases hmem with rfl | rfl | rfl <;> rcases i with _ | _ | i <;> rfl
  have hroom : RoomToCall "api" .twoBackends ops := fun pre hpre i =>
    (hzero pre hpre i).trans_lt (by decide)
  obtain ⟨order, _, _, hidle, r, px', heq, hasked⟩ := least_conn_order reachable_twoBackends
    hpool hv hkeep hroom hpool' hs hroute 9 (fun _ => ⟨.ok (.new 200), 3⟩)
  refine ⟨r, px', heq, ?_⟩
  rw [hasked, hidle (hzero ops (List.prefix_refl ops))]
  decide

end Proxy

end Echofront
