import Echofront.Pool.Load
import Echofront.Proxy.Session

/-!
# A failing backend behind the proxy

What a backend that fails costs the requests of a session.

* `Pool.Quarantined` is a breaker that cools down, or an ejection that has not expired.
  `quarantine_holds` says that from the call that starts one until its end no request
  sends anything to the backend, whatever else the session does.
* `failures_rate_limited` bounds the failed attempts on a backend over any time, by the
  threshold and the cooldown of its breaker.
-/

namespace Echofront

open Lib

/-! ## Quarantine -/

namespace Pool

/-- The breaker of backend `i` is cooling at `t`, or the backend is ejected at `t`. -/
def Quarantined (p : Pool) (i t : Nat) : Prop :=
  ((p.backend i).breaker.state = .open ∧
    t - (p.backend i).breaker.openedAt < (p.backend i).breaker.cfg.cooldownMs) ∨
  ∃ u, (p.backend i).ejectedUntil = some u ∧ t < u

namespace Quarantined

variable {p : Pool} {i t : Nat}

theorem lt_length (h : p.Quarantined i t) : i < p.backends.length := by
  rcases h with ⟨ho, _⟩ | ⟨u, hu, _⟩
  · exact lt_length_of_field_ne (fun b => b.breaker.state)
      (by rw [ho]; exact BreakerState.noConfusion)
  · exact lt_length_of_ejectedUntil hu

theorem mono (h : p.Quarantined i t) {s : Nat} (hle : s ≤ t) : p.Quarantined i s := by
  rcases h with ⟨ho, hc⟩ | ⟨u, hu, hlt⟩
  · exact Or.inl ⟨ho, by omega⟩
  · exact Or.inr ⟨u, hu, by omega⟩

/-- A run until then does not end a quarantine. -/
theorem exec (h : p.Quarantined i t) {ops : List Op} (hv : poolSystem.Valid p ops)
    (ht : ∀ op ∈ ops, ∀ s, op.time = some s → s ≤ t) :
    (poolSystem.exec p ops).Quarantined i t := by
  have hi := h.lt_length
  rcases h with ⟨ho, hc⟩ | ⟨u, hu, hlt⟩
  · have hsame := breaker_exec_of_cooling hi ho hc hv ht
    exact Or.inl (by rw [hsame]; exact ⟨ho, hc⟩)
  · have hsame := ejection_exec_of_active hu hv
      (fun op hop s hs => Nat.lt_of_le_of_lt (ht op hop s hs) hlt)
    exact Or.inr ⟨u, (congrArg Backend.Ejection.ejectedUntil hsame).trans hu, hlt⟩

theorem not_mem_candidates (h : p.Quarantined i t) (exclude : List Nat) :
    i ∉ p.candidates t exclude := by
  intro hmem
  obtain ⟨_, _, hav, _⟩ := mem_candidates.mp hmem
  simp only [Backend.isAvailable, Bool.and_eq_true, Bool.not_eq_true'] at hav
  obtain ⟨⟨_, hej⟩, hadmits⟩ := hav
  rcases h with ⟨ho, hc⟩ | ⟨u, hu, hlt⟩
  · rcases (CircuitBreaker.admits_eq_true_iff _ _ _).mp hadmits with hs | ⟨hs, _⟩ | ⟨_, hle⟩
    · exact absurd (ho.symm.trans hs) (by decide)
    · exact absurd (ho.symm.trans hs) (by decide)
    · exact Nat.not_le_of_lt hc hle
  · exact Nat.not_le_of_lt hlt ((isEjected_eq_false_iff _ _).mp hej u hu)

end Quarantined

/-- A run that trips a breaker starts a quarantine. -/
theorem quarantined_of_trips {p : Pool} {ops : List Op} (hv : poolSystem.Valid p ops)
    {t : Nat} (ht : ∀ op ∈ ops, ∀ s, op.time = some s → s = t) {i : Nat}
    (htrips : (p.backend i).breaker.trips <
      ((poolSystem.exec p ops).backend i).breaker.trips) {T : Nat} (hle : t ≤ T)
    (hT : T - t < ((poolSystem.exec p ops).backend i).breaker.cfg.cooldownMs) :
    (poolSystem.exec p ops).Quarantined i T := by
  induction ops generalizing p with
  | nil => exact absurd htrips (Nat.lt_irrefl _)
  | cons op ops ih =>
    have hrest : ∀ o ∈ ops, ∀ s, o.time = some s → s = t := fun o ho => ht o (by simp [ho])
    by_cases hrise : (p.backend i).breaker.trips < ((p.apply op).backend i).breaker.trips
    · -- this call trips the breaker, and the rest of the run comes within the cooldown
      obtain ⟨s, hs⟩ : ∃ s, op.time = some s := by
        rcases backend_apply_cases hv.1 i with ⟨_, heq⟩ | ⟨_, health, cfg, heq⟩
        · rw [heq] at hrise
          rcases p.effect_breaker_cases op i (p.backend i) with hb | ⟨e, he, _⟩
          · exact absurd (hb ▸ hrise) (Nat.lt_irrefl _)
          · exact ⟨e.now, he⟩
        · rw [heq] at hrise
          exact absurd hrise (Nat.not_lt_zero _)
      have htrip : tripTime i p op = some s := by rw [tripTime, if_pos hrise, hs]
      obtain ⟨hi, _, ho, hat, _⟩ := tripTime_eq_some hv.1 htrip
      obtain rfl := ht op (by simp) s hs
      have hi' : i < (p.apply op).backends.length :=
        Nat.lt_of_lt_of_le hi (p.length_le_apply op)
      have hcfg : ((poolSystem.exec (p.apply op) ops).backend i).breaker.cfg =
          ((p.apply op).backend i).breaker.cfg :=
        breaker_cfg_exec hi' ops
      have hq : (p.apply op).Quarantined i T := by
        refine Or.inl ⟨ho, ?_⟩
        rw [hat, ← hcfg]
        exact hT
      exact hq.exec hv.2 (fun o hmem u hu => by rw [hrest o hmem u hu]; exact hle)
    · exact ih hv.2 hrest (Nat.lt_of_le_of_lt (Nat.le_of_not_lt hrise) htrips) hT

/-- Two backends that the first failure trips, with a cooldown of 100 ms. -/
def fragileTwo : Pool :=
  ((Pool.new "api" .roundRobin .default).addBackend (fragile "a")).addBackend (fragile "b")

theorem reachable_fragileTwo : fragileTwo.Reachable :=
  ⟨.new "api" .roundRobin .default, [.addBackend (fragile "a"), .addBackend (fragile "b")],
    ⟨_, _, _, rfl⟩, ⟨Backend.fresh_new _ _ _ _, Backend.fresh_new _ _ _ _, trivial⟩, rfl⟩

end Pool

namespace HandleLoop

variable {c : Call} {s s' : HandleLoop} {i : Nat}

/-! ## Failed attempts -/

/-- The attempt is a failed one on backend `i`. -/
def failedOn (i : Nat) (a : Attempt) : Bool := a.backend == i && !a.ok

/-- A selected backend has a breaker that is not open. -/
theorem poll_ne_open_of_candidate {p : Pool} {now : Nat} {exclude : List Nat}
    (h : i ∈ p.candidates now exclude) :
    ((p.backend i).breaker.poll now).state ≠ .open := by
  intro ho
  obtain ⟨hopen, hcool, _⟩ := CircuitBreaker.cooling_of_poll ho
  have hq : p.Quarantined i now := Or.inl ⟨hopen, hcool⟩
  exact hq.not_mem_candidates exclude h

/-- A failed attempt of a turn is a failure that the breaker of the backend counts. -/
theorem turn_strikes (h : s.pool.Reachable) :
    (s.turn c).locals.attempts.countP (failedOn i) ≤
      s.attempts.countP (failedOn i) +
        poolSystem.total (Pool.strikes i) s.pool (s.turnCalls c) := by
  cases hsel : (s.pool.select c.now c.key s.tried).1 with
  | none =>
    rw [turn_of_none hsel]
    exact Nat.le_add_right _ _
  | some idx =>
    rcases turn_of_select hsel with ⟨resp, _, hturn⟩ | ⟨e, hreply, hturn⟩
    · rw [hturn]
      simp [Turn.locals, succeed, asking, ask, attempt, failedOn, List.countP_append]
    · have hattempts : (s.turn c).locals.attempts.countP (failedOn i) =
          s.attempts.countP (failedOn i) + if idx = i then 1 else 0 := by
        rw [hturn, (retry_locals _ _).2]
        by_cases hidx : idx = i <;>
          simp [fail, asking, ask, attempt, failedOn, List.countP_append, hidx]
      have hcalls : s.turnCalls c = [.select c.now c.key s.tried, .begin idx, .endCall idx,
          .recordFailure idx c.now] := by
        simp only [turnCalls, hsel, record, hreply]
      -- the breaker of the backend is not open when the failure is recorded
      have hmem := Pool.select_mem (Pool.ringOk_of_reachable h) hsel
      have hlen := (Pool.mem_candidates.mp hmem).1
      have hbreaker : ((poolSystem.exec s.pool
          [.select c.now c.key s.tried, .begin idx, .endCall idx]).backend idx).breaker =
          (s.pool.backend idx).breaker := by
        have hsels := (s.pool.selectFrame_select c.now c.key s.tried).backend_eq idx
        have hlen' : idx < (s.pool.select c.now c.key s.tried).2.backends.length := by
          rwa [(s.pool.selectFrame_select c.now c.key s.tried).length]
        show ((((s.pool.select c.now c.key s.tried).2.begin idx).endCall idx).backend
          idx).breaker = _
        rw [Pool.endCall, Pool.backend_modify_self (by simpa [Pool.begin] using hlen'),
          Pool.begin, Pool.backend_modify_self hlen', hsels]
        rfl
      have hstrike : poolSystem.total (Pool.strikes i) s.pool (s.turnCalls c) =
          Pool.strikes i (poolSystem.exec s.pool
            [.select c.now c.key s.tried, .begin idx, .endCall idx])
            (.recordFailure idx c.now) := by
        rw [hcalls]
        show 0 + (0 + (0 + (_ + 0))) = _
        rw [Nat.zero_add, Nat.zero_add, Nat.zero_add, Nat.add_zero]
        rfl
      rw [hattempts, hstrike]
      by_cases hidx : idx = i
      · subst hidx
        have hne := poll_ne_open_of_candidate hmem
        simp only [Pool.strikes, if_true, hbreaker, if_neg hne]
        exact Nat.le_refl _
      · rw [if_neg hidx]
        exact Nat.le_add_right _ _

theorem loop_strikes {fuel : Nat} {response : Except ProxyError Response}
    (h : s.pool.Reachable) (hl : loop c fuel s = some (response, s')) :
    s'.attempts.countP (failedOn i) ≤ s.attempts.countP (failedOn i) +
      poolSystem.total (Pool.strikes i) s.pool (loopCalls c fuel s) := by
  induction fuel generalizing s with
  | zero => simp [loop] at hl
  | succ fuel ih =>
    have hv := valid_turnCalls h c
    have hpool := pool_turn c s
    have hturn := turn_strikes (c := c) (i := i) h
    rw [loop] at hl
    rw [loopCalls, System.total_append]
    cases ht : s.turn c with
    | finished response' s₁ =>
      rw [ht] at hl hturn
      obtain ⟨_, rfl⟩ := Prod.mk.inj (Option.some.inj hl)
      exact Nat.le_trans hturn (by simp)
    | again s₁ =>
      rw [ht] at hl hturn hpool
      have hpool : s₁.pool = poolSystem.exec s.pool (s.turnCalls c) := hpool
      have hturn : s₁.attempts.countP (failedOn i) ≤ s.attempts.countP (failedOn i) +
          poolSystem.total (Pool.strikes i) s.pool (s.turnCalls c) := hturn
      have hreach : s₁.pool.Reachable := hpool ▸ System.Reachable.exec h hv
      have hrest := ih hreach hl
      rw [hpool] at hrest
      simp only
      omega

end HandleLoop

namespace Proxy

open HandleLoop (failedOn)

/-- What a request counts, if it is routed to `service`. -/
def countIn (service : String) (f : Attempt → Bool) (px : Proxy) : SessionOp → Nat
  | .handle now req replies =>
    if px.router.route req = some service then
      match px.handle now req replies with
      | none => 0
      | some (r, _) => r.attempts.countP f
    else 0
  | _ => 0

/-! ## Quarantine across requests -/

/-- The attempt is one on backend `i`. -/
def attemptOn (i : Nat) (a : Attempt) : Bool := a.backend == i

/-- A request sends nothing to a backend in quarantine. -/
theorem countIn_of_quarantined {px : Proxy} (h : px.Reachable) {service : String}
    {pool : Pool} (hpool : px.pools service = some pool) {i T : Nat}
    (hq : pool.Quarantined i T) {op : SessionOp} (ht : ∀ u, op.time = some u → u ≤ T) :
    px.countIn service (attemptOn i) op = 0 := by
  cases op with
  | handle now req replies =>
    by_cases hroute : px.router.route req = some service
    · obtain ⟨response, s₁, s, hh, heq⟩ :=
        handle_of_pool (poolsOk_of_reachable h) hroute hpool now replies
      have htr := hh.last.traced hh.looped
      have hv : poolSystem.Valid pool [.poll now] := ⟨trivial, trivial⟩
      have hpolled : (pool.poll now).Quarantined i now :=
        (hq.mono (ht now rfl)).exec hv
          (fun o ho u hu => by
            obtain rfl := List.mem_singleton.mp ho
            exact Nat.le_of_eq (Option.some.inj hu).symm)
      simp only [countIn, if_pos hroute, heq]
      refine List.countP_eq_zero.mpr (fun a ha hon => ?_)
      have hmem : i ∈ s.attempts.map Attempt.backend :=
        List.mem_map.mpr ⟨a, ha, by simpa [attemptOn] using hon⟩
      exact hpolled.not_mem_candidates [] (htr.candidates i hmem)
    · simp only [countIn, if_neg hroute]
  | _ => rfl

/-- A quarantine holds against all requests of a session.  It starts with any call of
the session, a failover inside a request included, that trips the breaker of the backend at
a time `t` or leaves the backend ejected; until its end no request sends anything to the
backend, whatever else the session does. -/
theorem quarantine_holds {px : Proxy} (h : px.Reachable) {service : String} {pool : Pool}
    (hpool : px.pools service = some pool) {op : SessionOp} {mid : List SessionOp}
    (hv : sessionSystem.Valid px (op :: mid)) (hkeep : ∀ o ∈ op :: mid, o.Keeps service)
    {T : Nat} (ht : ∀ o ∈ mid, ∀ u, o.time = some u → u ≤ T) {pool' : Pool}
    (hpool' : (sessionSystem.exec px [op]).pools service = some pool') {i : Nat}
    (hq : (∃ t, op.time = some t ∧ t ≤ T ∧
        (pool.backend i).breaker.trips < (pool'.backend i).breaker.trips ∧
        T - t < (pool'.backend i).breaker.cfg.cooldownMs) ∨
      ∃ u, (pool'.backend i).ejectedUntil = some u ∧ T < u) :
    sessionSystem.total (countIn service (attemptOn i)) (sessionSystem.exec px [op]) mid =
      0 := by
  obtain ⟨hvc, hpools⟩ := pools_step h hv.1 (hkeep op (by simp)) hpool
  have hexec : pool' = poolSystem.exec pool (px.callsOf service op) :=
    Option.some.inj (hpool'.symm.trans hpools)
  -- the call leaves the backend in quarantine
  have hstart : pool'.Quarantined i T := by
    rcases hq with ⟨t, htime, hle, htrips, hT⟩ | hejected
    · rw [hexec] at htrips hT ⊢
      refine Pool.quarantined_of_trips hvc (fun call hcall s hs => ?_) htrips hle hT
      have hsame := time_callsOf service px op hcall hs
      exact Option.some.inj (hsame.symm.trans htime)
    · exact Or.inr hejected
  refine System.Valid.total_eq_zero (M := sessionSystem)
    (I := fun q => q.Reachable ∧ ∃ p, q.pools service = some p ∧ p.Quarantined i T)
    (Q := fun o => o.Keeps service ∧ ∀ u, o.time = some u → u ≤ T)
    (fun q o hI hok hQ => ?_)
    ⟨reachable_step h hv.1, pool', hpool', hstart⟩
    hv.2 (fun o ho => ⟨hkeep o (by simp [ho]), ht o ho⟩)
  obtain ⟨hreach, p, hp, hquar⟩ := hI
  obtain ⟨hvs, hps⟩ := pools_step hreach hok hQ.1 hp
  refine ⟨countIn_of_quarantined hreach hp hquar hQ.2, reachable_step hreach hok, _, hps,
    hquar.exec hvs (fun call hcall s hs => ?_)⟩
  exact hQ.2 s (time_callsOf service q o hcall hs)

/-- A proxy with one route, to two backends that the first failure trips. -/
def fragileTwo : Proxy := routed.addPool .fragileTwo

theorem reachable_fragileTwo : fragileTwo.Reachable :=
  ⟨routed, [.addPool .fragileTwo], ⟨_, _, rfl⟩, ⟨Pool.reachable_fragileTwo, trivial⟩, rfl⟩

/-- A request at 10 that fails on both backends, and one at 50. -/
theorem quarantine_holds_two :
    sessionSystem.total (countIn "api" (attemptOn 0))
      (sessionSystem.exec fragileTwo
        [.handle 10 (.new .get "/") (fun _ => ⟨.error .timeout, 7⟩)])
      [.handle 50 (.new .get "/") (fun _ => ⟨.ok (.new 200), 3⟩)] = 0 := by
  have hv : sessionSystem.Valid fragileTwo
      [.handle 10 (.new .get "/") (fun _ => ⟨.error .timeout, 7⟩),
        .handle 50 (.new .get "/") (fun _ => ⟨.ok (.new 200), 3⟩)] :=
    ⟨trivial, trivial, trivial⟩
  exact quarantine_holds reachable_fragileTwo rfl (T := 50) hv (by simp [SessionOp.Keeps])
    (by simp [SessionOp.time]) rfl (Or.inl ⟨10, rfl, by decide⟩)

/-! ## The rate of failures -/

/-- A failed attempt of a request on backend `i` is a failure that its breaker counts. -/
theorem countIn_le_strikes {px : Proxy} (h : px.Reachable) {service : String} {pool : Pool}
    (hpool : px.pools service = some pool) (op : SessionOp) (i : Nat) :
    px.countIn service (failedOn i) op ≤
      poolSystem.total (Pool.strikes i) pool (px.callsOf service op) := by
  cases op with
  | handle now req replies =>
    by_cases hroute : px.router.route req = some service
    · have hp := poolsOk_of_reachable h
      obtain ⟨response, s, hloop, heq, _, _⟩ := handle_calls hp hroute hpool now replies
      have hreach := (starts_start px.arrive (hp service pool hpool) now).reachable
      have hstrikes := HandleLoop.loop_strikes (i := i) hreach hloop
      have hstart : (px.arrive.start pool now).attempts.countP (failedOn i) = 0 := rfl
      rw [hstart, Nat.zero_add] at hstrikes
      simp only [countIn, if_pos hroute, heq, callsOf, handleCalls_of_routed hroute hpool,
        System.total_cons]
      show s.attempts.countP (failedOn i) ≤ 0 + _
      rw [Nat.zero_add]
      exact hstrikes
    · simp only [countIn, if_neg hroute]
      exact Nat.zero_le _
  | _ => exact Nat.zero_le _

/-- Over any time the requests of a session fail on a backend at most as often as the
threshold of its breaker says, and once more for each cooldown, and again up to the
threshold less one for each success that is recorded on it.  This bounds what a backend
that is down costs, whatever the strategy, the retries and the other calls are. -/
theorem failures_rate_limited {px : Proxy} (h : px.Reachable) {service : String}
    {pool : Pool} (hpool : px.pools service = some pool) {i : Nat}
    (hi : i < pool.backends.length) (hc : 0 < (pool.backend i).breaker.cfg.cooldownMs)
    {ops : List SessionOp} (hv : sessionSystem.Valid px ops)
    (hkeep : ∀ op ∈ ops, op.Keeps service) (hn : Nondecreasing SessionOp.time ops)
    {t T : Nat} (hle : t ≤ T) (ht : ∀ op ∈ ops, ∀ u, op.time = some u → t ≤ u ∧ u ≤ T) :
    sessionSystem.total (countIn service (failedOn i)) px ops ≤
      max 1 (pool.backend i).breaker.cfg.failureThreshold +
        (T - t) / (pool.backend i).breaker.cfg.cooldownMs +
        (max 1 (pool.backend i).breaker.cfg.failureThreshold - 1) *
          poolSystem.total (fun _ => Pool.credits i) pool
            (sessionSystem.calls (callsOf service) px ops) := by
  obtain ⟨hvalid, _, htimed⟩ := pools_exec h hpool hv hkeep
  have hreach := poolsOk_of_reachable h service pool hpool
  have hbound := Pool.strikes_le hreach hi hc hvalid (htimed hn) hle (forall_time_calls ht)
  have hcount : sessionSystem.total (countIn service (failedOn i)) px ops ≤
      poolSystem.total (Pool.strikes i) pool (sessionSystem.calls (callsOf service) px ops) :=
    total_le_calls h hpool hv hkeep
      (fun q p op hreach hp _ _ => countIn_le_strikes hreach hp op i)
  exact Nat.le_trans hcount hbound

/-- Two requests within 40 ms that find no upstream fail once on the first backend. -/
theorem failures_rate_limited_two :
    sessionSystem.total (countIn "api" (failedOn 0)) fragileTwo
      [.handle 10 (.new .get "/") (fun _ => ⟨.error .timeout, 7⟩),
        .handle 50 (.new .get "/") (fun _ => ⟨.error .timeout, 7⟩)] ≤ 1 := by
  have hv : sessionSystem.Valid fragileTwo
      [.handle 10 (.new .get "/") (fun _ => ⟨.error .timeout, 7⟩),
        .handle 50 (.new .get "/") (fun _ => ⟨.error .timeout, 7⟩)] :=
    ⟨trivial, trivial, trivial⟩
  have hpool : fragileTwo.pools "api" = some .fragileTwo := rfl
  have hbound := failures_rate_limited (i := 0) (t := 10) (T := 50) reachable_fragileTwo
    hpool (by decide) (by decide) hv (by simp [SessionOp.Keeps]) (by decide) (by decide)
    (by simp [SessionOp.time])
  exact Nat.le_trans hbound (by decide)

end Proxy

end Echofront
