import Echofront.Pool.WeightedI64
import Echofront.Proxy.Recovery

/-!
# Weighted shares behind the proxy

A request that is answered at its first attempt is one selection of its pool.  So while
the backends answer, the shares of a weighted pool are those of its selections, also with
polls, health checks and recorded latencies in between.

* `Steady` is a call of a session with which the pool stays steady: the requests find one
  active set with constant scores, and its backends answer.
* `steady_calls` is the projection: the first picks of the requests are the picks of the
  pool, in the same order.
* `weighted_shares` puts them together with the bounds on the current weights, which hold
  whatever happened before.  Within the range of `i64` the pool's selections on wrapped
  sums are these selections.
-/

namespace Echofront

open Lib

/-! ## A request as one selection -/

namespace HandleLoop

variable {c : Call} {s : HandleLoop}

theorem loopCalls_of_finished {response : Except ProxyError Response} {s' : HandleLoop}
    (h : s.turn c = .finished response s') (fuel : Nat) :
    loopCalls c (fuel + 1) s = s.turnCalls c := by
  rw [loopCalls, h, List.append_nil]

/-- A loop whose first selection answers makes the calls of one turn. -/
theorem loopCalls_of_answer
    (hok : ∀ i, (s.pool.select c.now c.key s.tried).1 = some i → (c.replies i).isOk = true)
    (fuel : Nat) : loopCalls c (fuel + 1) s = s.turnCalls c := by
  cases hsel : (s.pool.select c.now c.key s.tried).1 with
  | none => exact loopCalls_of_finished (turn_of_none (c := c) hsel) fuel
  | some idx =>
    rcases turn_of_select hsel with ⟨resp, _, hturn⟩ | ⟨e, hreply, _⟩
    · exact loopCalls_of_finished hturn fuel
    · have hanswer := hok idx hsel
      simp [UpstreamReply.isOk, hreply] at hanswer

/-- A turn makes one selection. -/
theorem turnCalls_eq (c : Call) (s : HandleLoop) :
    ∃ rest, s.turnCalls c = .select c.now c.key s.tried :: rest ∧
      ∀ op ∈ rest, ∀ now key exclude, op ≠ .select now key exclude := by
  refine ⟨_, rfl, fun op hop now key exclude => ?_⟩
  cases hsel : (s.pool.select c.now c.key s.tried).1 with
  | none => simp [hsel] at hop
  | some idx =>
    have hop : op = .begin idx ∨ op = .endCall idx ∨ op = record c idx := by
      simpa [hsel] using hop
    rcases hop with rfl | rfl | rfl
    · simp
    · simp
    · unfold record
      cases (c.replies idx).outcome <;> simp

end HandleLoop

namespace Pool

variable {A : Finset Nat} {s : Nat → Nat}

/-- A call that selects nothing keeps a steady run steady, and picks nothing. -/
theorem steady_of_ne {p : Pool} {op : Op} (h : ∀ now key exclude, op ≠ .select now key exclude) :
    SelectsFrom A s p (.call op) ∧ weightedPick p (.call op) = none := by
  cases op with
  | select now key exclude => exact absurd rfl (h now key exclude)
  | _ => exact ⟨trivial, rfl⟩

/-- Calls that select nothing. -/
theorem steady_of_forall_ne {p : Pool} {ops : List Op}
    (h : ∀ op ∈ ops, ∀ now key exclude, op ≠ .select now key exclude) :
    churnSystem.Always (SelectsFrom A s) p (ops.map .call) ∧
      weightedPicks p (ops.map .call) = [] := by
  induction ops generalizing p with
  | nil => exact ⟨trivial, rfl⟩
  | cons op ops ih =>
    obtain ⟨hop, hpick⟩ := steady_of_ne (A := A) (s := s) (p := p) (h op (by simp))
    obtain ⟨hrest, hpicks⟩ := ih (p := p.apply op) (fun o ho => h o (by simp [ho]))
    refine ⟨⟨hop, hrest⟩, ?_⟩
    show (weightedPick p (.call op)).toList ++ weightedPicks (p.apply op) (ops.map .call) = []
    rw [hpick, hpicks]
    rfl

/-- The credit of a backend between two states of a pool. -/
theorem abs_sub_credit_le {p q : Pool} (hp : Churned p) (hq : Churned q)
    (hgrow : p.backends.length ≤ q.backends.length ∧ p.totalWeight ≤ q.totalWeight) (i : Nat) :
    |p.credit i - q.credit i| ≤ 200 * q.totalWeight * ((q.backends.length : Int) - 1) := by
  rcases Nat.eq_zero_or_pos q.backends.length with hnil | h1
  · have hzero : ∀ r : Pool, r.backends.length = 0 → r.credit i = 0 := by
      intro r hr
      rw [credit, backend_of_ge (by omega)]
      rfl
    have hweight : q.totalWeight = 0 := by simp [totalWeight, hnil]
    simp [hzero p (by omega), hzero q hnil, hweight]
  · have hstart := abs_le.mp (hp.abs_credit_le hgrow.1 hgrow.2 h1 i)
    have hend := abs_le.mp (hq.abs_credit_le (Nat.le_refl _) (Nat.le_refl _) h1 i)
    rw [abs_le]
    constructor <;> linarith

theorem weightedPicks_append (p : Pool) (xs ys : List Churn) :
    weightedPicks p (xs ++ ys) =
      weightedPicks p xs ++ weightedPicks (churnSystem.exec p xs) ys :=
  System.events_append (M := churnSystem) _ _ _ _

end Pool

/-- A call of a session with which the weighted pool of `service` stays steady.

* A request that goes there finds the backends `A` active with the scores `s`, and they
  answer it.
* No selection is made on the pool itself, and the pool is not replaced. -/
def SessionOp.Steady (service : String) (A : Finset Nat) (s : Nat → Nat) (px : Proxy) :
    SessionOp → Prop
  | .handle now req replies => px.router.route req = some service →
    ∀ pool ∈ px.pools service, pool.strategy = .weighted ∧
      (pool.poll now).activeSet now [] = A ∧
      ∀ i ∈ A, (pool.poll now).weightedScore i = s i ∧ (replies i).isOk = true
  | .poolCall name op => name = service → ∀ now key exclude, op ≠ .select now key exclude
  | .addPool pool => pool.name ≠ service
  | .setStickyHeader _ | .runHealthChecks _ _ => True

namespace Proxy

variable {px : Proxy} {service : String} {A : Finset Nat} {s : Nat → Nat}

/-- The first pick of a request to `service`. -/
def selectedBy (service : String) (px : Proxy) : SessionOp → Option (Option Nat)
  | .handle now req replies =>
    if px.router.route req = some service then
      (px.handle now req replies).map (fun r => r.1.selected) else none
  | _ => none

/-- The first pick of a request is what its pool selects after the poll. -/
theorem selected_handle (h : PoolsOk px) {req : Request} {pool : Pool}
    (hroute : px.router.route req = some service) (hpool : px.pools service = some pool)
    (now : Nat) (replies : Nat → UpstreamReply) :
    (px.handle now req replies).map (fun r => r.1.selected) =
      some ((pool.poll now).select now (px.stickyKey req) []).1 := by
  obtain ⟨response, s₁, s, hh, heq⟩ := handle_of_pool h hroute hpool now replies
  rw [heq]
  exact congrArg some (hh.last.firstSelected hh.looped)

/-- A request to a steady pool is one selection. -/
theorem steady_handle (h : px.Reachable) {now : Nat} {req : Request}
    {replies : Nat → UpstreamReply} {pool : Pool}
    (hpool : px.pools service = some pool)
    (hsteady : (SessionOp.handle now req replies).Steady service A s px) :
    churnSystem.Always (Pool.SelectsFrom A s) pool
        ((px.callsOf service (.handle now req replies)).map .call) ∧
      Pool.weightedPicks pool ((px.callsOf service (.handle now req replies)).map .call) =
        (px.selectedBy service (.handle now req replies)).toList := by
  by_cases hroute : px.router.route req = some service
  · obtain ⟨hs, hactive, hall⟩ := hsteady hroute pool hpool
    have hs' : (pool.poll now).strategy = .weighted := hs
    have hanswer : ∀ i, ((pool.poll now).select now (px.stickyKey req) []).1 = some i →
        (replies i).isOk = true := by
      intro i hi
      rcases Pool.select_weighted_cases hs' now (px.stickyKey req) [] with
        ⟨_, hnone⟩ | ⟨b, hb, hlead, _⟩
      · simp [hnone] at hi
      · obtain rfl := Option.some.inj (hb.symm.trans hi)
        exact (hall b (hactive ▸ hlead.mem)).2
    have hcalls : px.callsOf service (.handle now req replies) = .poll now ::
        (px.arrive.start pool now).turnCalls (px.arrive.callOf now req replies) := by
      rw [callsOf, handleCalls_of_routed hroute hpool, HandleLoop.loopCalls_of_answer hanswer]
    obtain ⟨rest, hturn, hrest⟩ := HandleLoop.turnCalls_eq (px.arrive.callOf now req replies)
      (px.arrive.start pool now)
    have hturn : (px.arrive.start pool now).turnCalls (px.arrive.callOf now req replies) =
        .select now (px.stickyKey req) [] :: rest := hturn
    rw [hcalls, hturn, selectedBy, if_pos hroute, selected_handle (poolsOk_of_reachable h) hroute
      hpool]
    obtain ⟨hquiet, hpicks⟩ := Pool.steady_of_forall_ne (A := A) (s := s) (p :=
      ((pool.poll now).select now (px.stickyKey req) []).2) hrest
    refine ⟨⟨trivial, fun _ => ⟨hactive, fun i hi => (hall i hi).1⟩, hquiet⟩, ?_⟩
    show [] ++ ((Pool.weightedPick (pool.poll now) (.call (.select now _ []))).toList ++
      Pool.weightedPicks ((pool.poll now).select now (px.stickyKey req) []).2 _) = _
    rw [hpicks, Pool.weightedPick, if_pos hs']
    rfl
  · rw [callsOf, handleCalls_of_not_routed hroute, selectedBy, if_neg hroute]
    exact ⟨trivial, rfl⟩

/-- One call of a session with which the pool stays steady. -/
theorem steady_step (h : px.Reachable) {op : SessionOp} {pool : Pool}
    (hpool : px.pools service = some pool) (hsteady : op.Steady service A s px) :
    churnSystem.Always (Pool.SelectsFrom A s) pool ((px.callsOf service op).map .call) ∧
      Pool.weightedPicks pool ((px.callsOf service op).map .call) =
        (px.selectedBy service op).toList := by
  cases op with
  | handle now req replies => exact steady_handle h hpool hsteady
  | poolCall name op =>
    refine Pool.steady_of_forall_ne (fun call hcall => ?_)
    by_cases hname : name = service
    · obtain rfl : call = op := by simpa [callsOf, hname] using hcall
      exact hsteady hname
    · simp [callsOf, hname] at hcall
  | _ => exact Pool.steady_of_forall_ne (by simp [callsOf])

/-- A steady session is a steady run of the pool, and the first picks of its requests are
the picks of the pool. -/
theorem steady_calls (h : px.Reachable) {pool : Pool} (hpool : px.pools service = some pool)
    {ops : List SessionOp} (hv : sessionSystem.Valid px ops)
    (hsteady : sessionSystem.Always (fun q op => op.Steady service A s q) px ops) :
    let calls := sessionSystem.calls (callsOf service) px ops
    poolSystem.Valid pool calls ∧
      (sessionSystem.exec px ops).pools service = some (poolSystem.exec pool calls) ∧
      churnSystem.Always (Pool.SelectsFrom A s) pool (calls.map .call) ∧
      Pool.weightedPicks pool (calls.map .call) =
        sessionSystem.events (selectedBy service) px ops := by
  induction ops generalizing px pool with
  | nil => exact ⟨trivial, hpool, trivial, rfl⟩
  | cons op ops ih =>
    have hkeep : op.Keeps service := by
      cases op with
      | addPool pool => exact hsteady.1
      | _ => trivial
    obtain ⟨hcalls, hnext⟩ := pools_step h hv.1 hkeep hpool
    have hreach := reachable_step h hv.1
    obtain ⟨hall, hpicks⟩ := steady_step h hpool hsteady.1
    obtain ⟨hvalid, hpools, hrest, hpicks'⟩ := ih hreach hnext hv.2 hsteady.2
    have hexec := (Pool.valid_churn_of_valid hcalls).2
    intro calls
    simp only [calls, System.calls_cons, List.map_append]
    rw [System.always_append_iff, Pool.weightedPicks_append, System.exec_append, hexec, hpicks]
    exact ⟨(System.valid_append_iff _ _ _ _).mpr ⟨hcalls, hvalid⟩, hpools, ⟨hall, hrest⟩,
      congrArg ((px.selectedBy service op).toList ++ ·) hpicks'⟩

theorem rampsOk_calls (calls : List Op) : ∀ a ∈ calls.map Churn.call, a.RampsOk := by
  intro a ha
  obtain ⟨op, _, rfl⟩ := List.mem_map.mp ha
  trivial

/-- The invariant of a pool under churn holds of every reachable pool. -/
theorem churned_of_reachable {pool : Pool} (h : pool.Reachable) : Pool.Churned pool := by
  obtain ⟨p₀, calls, ⟨name, strategy, health, rfl⟩, hv, rfl⟩ := h
  obtain ⟨hvalid, hexec⟩ := Pool.valid_churn_of_valid hv
  rw [← hexec]
  exact Pool.churned_exec (Pool.churned_new name strategy health) hvalid (rampsOk_calls calls)

/-- A reachable pool in range is reached on `i64` as well. -/
theorem reachable_i64 {pool : Pool} (h : pool.Reachable)
    (hrange : (100 * pool.totalWeight * pool.backends.length : Int) < 2 ^ 63) :
    i64System.Reachable pool := by
  obtain ⟨p₀, calls, ⟨name, strategy, health, rfl⟩, hv, rfl⟩ := h
  obtain ⟨hvalid, hexec⟩ := Pool.valid_churn_of_valid hv
  obtain ⟨hvalid', hexec', _⟩ := (Pool.churned_new name strategy health).exec_i64 hvalid
    (rampsOk_calls calls) (hexec.symm ▸ hrange)
  exact ⟨_, _, ⟨name, strategy, health, rfl⟩, hvalid', hexec'.trans hexec⟩

/-- Behind the proxy a weighted pool serves in proportion to the scores of its backends,
whatever happened before.  Over a session in which all requests for the service find the
active set `A` with the scores `s` and are answered, the first picks of each backend are
its share of the requests, up to a bound that depends only on the pool.  From current
weights of zero the shares are exact after every period.

The pool has `n` backends of total weight `M` at the end of the session, and
`100 * M * n` is below `2 ^ 63`.  Then the selections on `i64` reach the pool of the start,
make these picks and leave the pool of the end. -/
theorem weighted_shares (h : px.Reachable) {pool : Pool} (hpool : px.pools service = some pool)
    {ops : List SessionOp} (hv : sessionSystem.Valid px ops)
    (hsteady : sessionSystem.Always (fun q op => op.Steady service A s q) px ops)
    {pool' : Pool} (hpool' : (sessionSystem.exec px ops).pools service = some pool')
    (hrange : (100 * pool'.totalWeight * pool'.backends.length : Int) < 2 ^ 63) {i : Nat}
    (hi : i ∈ A) :
    let calls := (sessionSystem.calls (callsOf service) px ops).map Churn.call
    let picks := sessionSystem.events (selectedBy service) px ops
    let W := ∑ j ∈ A, s j
    let g := (A.filter (fun j => 0 < s j)).gcd s
    (i64System.Reachable pool ∧ i64System.exec pool calls = pool' ∧
        Pool.weightedPicksI64 pool calls = picks) ∧
      |(picks.count (some i) : Int) * W - picks.length * s i| ≤
        200 * pool'.totalWeight * ((pool'.backends.length : Int) - 1) ∧
      ((∀ j, (pool.backend j).currentWeight = 0) → 0 < W →
        picks.count (some i) * W < picks.length * s i + W ∧
        ∀ k, picks.length = k * (W / g) → picks.count (some i) = k * (s i / g)) := by
  intro calls picks W g
  obtain ⟨hcalls, hpools, hall, hpicks⟩ := steady_calls h hpool hv hsteady
  obtain ⟨hvalid, hexec⟩ := Pool.valid_churn_of_valid hcalls
  have hreach := poolsOk_of_reachable h service pool hpool
  have hstart := churned_of_reachable hreach
  have hend := churned_of_reachable (System.Reachable.exec hreach hcalls)
  obtain rfl := Option.some.inj (hpool'.symm.trans hpools)
  have hpicks : Pool.weightedPicks pool calls = picks := hpicks
  refine ⟨?_, ?_, fun hzero hW => ?_⟩
  · obtain ⟨_, hexec', hpicks'⟩ := hstart.exec_i64 hvalid (rampsOk_calls _)
      (hexec.symm ▸ hrange)
    have hbefore : (100 * pool.totalWeight * pool.backends.length : Int) < 2 ^ 63 := by
      obtain ⟨hlen, hweight⟩ := Pool.grows_exec hvalid
      rw [hexec] at hlen hweight
      refine lt_of_le_of_lt ?_ hrange
      gcongr
    exact ⟨reachable_i64 hreach hbefore, hexec'.trans hexec, hpicks'.trans hpicks⟩
  · have hshare := Pool.share_of_steady hvalid hall hi
    rw [hpicks, hexec] at hshare
    have hbound := Pool.abs_sub_credit_le hstart hend (hexec ▸ Pool.grows_exec hvalid) i
    rw [← hshare] at hbound
    exact_mod_cast hbound
  · obtain ⟨js, hjs, hrounds⟩ := Pool.rounds_of_steady ⟨i, hi⟩ hvalid hall
    have hjs : picks = js.map some := hpicks.symm.trans hjs
    have htotal := SmoothWrr.total_natCast A s
    rw [hjs, Pool.count_map_some, List.length_map]
    refine ⟨?_, fun k hlen => ?_⟩
    · have hlt := hrounds.count_lt (fun j _ => by positivity)
        (SmoothWrr.total_natCast_pos hW) (fun j _ => hzero j) hi
      rw [htotal] at hlt
      exact_mod_cast hlt
    · exact (Pool.cycle_of_rounds hrounds hzero hW (fun j hj => Pool.gcd_dvd_scores hj) hlen).1
        i hi

/-- Two backends of weights 1 and 2, and three requests that are answered. -/
def threeAnswered : List SessionOp :=
  .poolCall "api" (.setStrategy .weighted) ::
    List.replicate 3 (.handle 5 (.new .get "/") (fun _ => ⟨.ok (.new 200), 3⟩))

/-- The second backend gets two of them. -/
theorem weighted_shares_two :
    (sessionSystem.events (selectedBy "api") twoBackends threeAnswered).count (some 1) = 2 := by
  have hv : sessionSystem.Valid twoBackends threeAnswered :=
    ⟨⟨.twoBackends, rfl, trivial⟩, trivial, trivial, trivial, trivial⟩
  have hsteady : sessionSystem.Always (fun q op => op.Steady "api" {0, 1}
      (fun i => if i = 0 then 100 else 200) q) twoBackends threeAnswered := by
    refine ⟨fun _ => by simp, fun _ pool hpool => ?_, fun _ pool hpool => ?_,
      fun _ pool hpool => ?_, trivial⟩
    all_goals
      obtain rfl := Option.some.inj hpool
      exact ⟨rfl, by decide, by decide⟩
  have hpool : twoBackends.pools "api" = some .twoBackends := rfl
  obtain ⟨_, hpool', _⟩ := steady_calls reachable_twoBackends hpool hv hsteady
  obtain ⟨_, _, hexact⟩ := weighted_shares reachable_twoBackends hpool hv hsteady hpool'
    (by decide) (i := 1) (by decide)
  have hzero : ∀ j, (Pool.twoBackends.backend j).currentWeight = 0 := by
    intro j
    rcases j with _ | _ | j <;> rfl
  exact (hexact hzero (by decide)).2 1 (by decide)

end Proxy

end Echofront
