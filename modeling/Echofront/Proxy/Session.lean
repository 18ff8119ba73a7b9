import Echofront.Lib.Project
import Echofront.Proxy.RoundRobin

/-!
# Sessions

`SessionOp` is one call on a proxy in service.  It is a `ProxyOp`, but `pool_mut` is
followed to the call that the caller makes on the pool it gets, so that a session keeps
the history of each pool.

`HandleLoop.turnCalls` and `handleCalls` write a request down as the calls that it
makes on its pool.  `pools_exec` is the projection: a session, seen from one of its
pools, is a run of that pool.  What `Echofront.Pool` proves of the runs of a pool holds
of the pools of a proxy by this theorem.
-/

namespace Echofront

open Lib

/-! ## A request as calls on a pool -/

namespace HandleLoop

/-- The call that records a reply. -/
def record (c : Call) (idx : Nat) : Op :=
  match (c.replies idx).outcome with
  | .ok _ => .recordSuccessLatency idx c.now (c.replies idx).latencyMs
  | .error _ => .recordFailure idx c.now

/-- The calls on the pool that a turn makes. -/
def turnCalls (c : Call) (s : HandleLoop) : List Op :=
  .select c.now c.key s.tried ::
    match (s.pool.select c.now c.key s.tried).1 with
    | none => []
    | some idx => [.begin idx, .endCall idx, record c idx]

/-- The calls on the pool that the loop makes. -/
def loopCalls (c : Call) : Nat → HandleLoop → List Op
  | 0, _ => []
  | fuel + 1, s =>
    s.turnCalls c ++
      match s.turn c with
      | .finished _ _ => []
      | .again s => loopCalls c fuel s

variable {c : Call} {s s' : HandleLoop}

theorem time_record (c : Call) (idx : Nat) : (record c idx).time = some c.now := by
  unfold record
  cases (c.replies idx).outcome <;> rfl

/-- The calls of the loop are selections, calls and records of replies. -/
inductive LoopCall (c : Call) : Op → Prop
  | select (tried : List Nat) : LoopCall c (.select c.now c.key tried)
  | begin (idx : Nat) : LoopCall c (.begin idx)
  | endCall (idx : Nat) : LoopCall c (.endCall idx)
  | record (idx : Nat) : LoopCall c (record c idx)

theorem loopCall_of_mem_turn {op : Op} (h : op ∈ s.turnCalls c) : LoopCall c op := by
  unfold turnCalls at h
  rcases List.mem_cons.mp h with rfl | h
  · exact .select s.tried
  · cases hsel : (s.pool.select c.now c.key s.tried).1 with
    | none => simp [hsel] at h
    | some idx =>
      have h : op = .begin idx ∨ op = .endCall idx ∨ op = record c idx := by
        simpa [hsel] using h
      rcases h with rfl | rfl | rfl
      · exact .begin idx
      · exact .endCall idx
      · exact .record idx

theorem loopCall_of_mem {fuel : Nat} {op : Op} (h : op ∈ loopCalls c fuel s) :
    LoopCall c op := by
  induction fuel generalizing s with
  | zero => exact absurd h (by simp [loopCalls])
  | succ fuel ih =>
    rw [loopCalls] at h
    rcases List.mem_append.mp h with h | h
    · exact loopCall_of_mem_turn h
    · cases hturn : s.turn c with
      | finished response s₁ => simp [hturn] at h
      | again s₁ =>
        rw [hturn] at h
        exact ih h

/-- A request makes its calls at its own time. -/
theorem LoopCall.time {op : Op} (h : LoopCall c op) {t : Nat} (ht : op.time = some t) :
    t = c.now := by
  cases h with
  | select tried => exact (Option.some.inj ht).symm
  | begin idx => exact absurd ht (by simp [Op.time])
  | endCall idx => exact absurd ht (by simp [Op.time])
  | record idx =>
    rw [time_record] at ht
    exact (Option.some.inj ht).symm

/-- A turn that selects `idx`, by the reply of `idx`. -/
theorem turn_of_select {idx : Nat} (h : (s.pool.select c.now c.key s.tried).1 = some idx) :
    (∃ resp, (c.replies idx).outcome = .ok resp ∧
      s.turn c = .finished (.ok resp)
        ((asking c s idx).succeed c.now idx resp (c.replies idx).latencyMs)) ∨
    (∃ e, (c.replies idx).outcome = .error e ∧
      s.turn c =
        ((asking c s idx).fail c.now idx e (c.replies idx).latencyMs).retry c.maxRetries) := by
  have hpair : s.pool.select c.now c.key s.tried =
      (some idx, (s.pool.select c.now c.key s.tried).2) := by rw [← h]
  cases hreply : (c.replies idx).outcome with
  | ok resp =>
    refine Or.inl ⟨resp, rfl, ?_⟩
    rw [turn, hpair]
    simp only [hreply, asking]
  | error e =>
    refine Or.inr ⟨e, rfl, ?_⟩
    rw [turn, hpair]
    simp only [hreply, asking]

theorem turn_of_none (h : (s.pool.select c.now c.key s.tried).1 = none) :
    s.turn c = .finished (.error s.unselected) s := by
  rw [turn, Pool.select_of_nil c.key (Pool.select_eq_none_iff.mp h)]

/-- A turn does to the pool what its calls do. -/
theorem pool_turn (c : Call) (s : HandleLoop) :
    (s.turn c).locals.pool = poolSystem.exec s.pool (s.turnCalls c) := by
  cases hsel : (s.pool.select c.now c.key s.tried).1 with
  | none =>
    have hcalls : s.turnCalls c = [.select c.now c.key s.tried] := by
      simp only [turnCalls, hsel]
    have hnil := Pool.select_of_nil c.key (Pool.select_eq_none_iff.mp hsel)
    rw [turn_of_none hsel, hcalls]
    show s.pool = (s.pool.select c.now c.key s.tried).2
    rw [hnil]
  | some idx =>
    have hcalls : s.turnCalls c =
        [.select c.now c.key s.tried, .begin idx, .endCall idx, record c idx] := by
      simp only [turnCalls, hsel]
    rcases turn_of_select hsel with ⟨resp, hreply, hturn⟩ | ⟨e, hreply, hturn⟩
    · rw [hturn, hcalls, record, hreply]
      rfl
    · rw [hturn, (retry_locals _ _).1, hcalls, record, hreply]
      rfl

/-- The pool accepts the calls of a turn. -/
theorem valid_turnCalls (h : s.pool.Reachable) (c : Call) :
    poolSystem.Valid s.pool (s.turnCalls c) := by
  unfold turnCalls
  refine ⟨trivial, ?_⟩
  cases hsel : (s.pool.select c.now c.key s.tried).1 with
  | none => exact trivial
  | some idx =>
    have hmem := Pool.select_mem (Pool.ringOk_of_reachable h) hsel
    have hlen : idx < (s.pool.select c.now c.key s.tried).2.backends.length := by
      rw [(s.pool.selectFrame_select _ _ _).length]
      exact (Pool.mem_candidates.mp hmem).1
    have hbegun : idx < ((s.pool.select c.now c.key s.tried).2.begin idx).backends.length := by
      simpa [Pool.begin] using hlen
    have hended : idx <
        (((s.pool.select c.now c.key s.tried).2.begin idx).endCall idx).backends.length := by
      simpa [Pool.endCall] using hbegun
    refine ⟨hlen, hbegun, ?_, trivial⟩
    unfold record
    cases (c.replies idx).outcome with
    | ok resp => exact hended
    | error e => exact hended

/-- The loop does to the pool what its calls do, and the pool accepts them. -/
theorem pool_loop {fuel : Nat} {response : Except ProxyError Response}
    (h : s.pool.Reachable) (hl : loop c fuel s = some (response, s')) :
    poolSystem.Valid s.pool (loopCalls c fuel s) ∧
      s'.pool = poolSystem.exec s.pool (loopCalls c fuel s) := by
  induction fuel generalizing s with
  | zero => simp [loop] at hl
  | succ fuel ih =>
    have hv := valid_turnCalls h c
    have hturn := pool_turn c s
    rw [loop] at hl
    rw [loopCalls]
    cases ht : s.turn c with
    | finished response' s₁ =>
      rw [ht] at hl hturn
      obtain ⟨_, rfl⟩ := Prod.mk.inj (Option.some.inj hl)
      simp only [List.append_nil]
      exact ⟨hv, hturn⟩
    | again s₁ =>
      rw [ht] at hl hturn
      have hturn : s₁.pool = poolSystem.exec s.pool (s.turnCalls c) := hturn
      have hreach : s₁.pool.Reachable := hturn ▸ System.Reachable.exec h hv
      obtain ⟨hrest, hpool⟩ := ih hreach hl
      rw [hturn] at hrest hpool
      simp only
      rw [System.exec_append]
      exact ⟨(System.valid_append_iff _ _ _ _).mpr ⟨hv, hrest⟩, hpool⟩

end HandleLoop

/-! ## Sessions -/

/-- One call on a proxy in service.  `poolCall` is `pool_mut(name)` and a call on the
pool that it returns. -/
inductive SessionOp where
  | setStickyHeader (header : String)
  | addPool (pool : Pool)
  | poolCall (name : String) (op : Op)
  | handle (now : Nat) (req : Request) (replies : Nat → UpstreamReply)
  | runHealthChecks (now : Nat) (probe : String → Nat → Bool)

/-- The time a call is made at, if it takes one. -/
def SessionOp.time : SessionOp → Option Nat
  | .setStickyHeader _ | .addPool _ => none
  | .poolCall _ op => op.time
  | .handle now _ _ | .runHealthChecks now _ => some now

/-- The call does not put another pool in the place of the pool `service`. -/
def SessionOp.Keeps (service : String) : SessionOp → Prop
  | .addPool pool => pool.name ≠ service
  | .setStickyHeader _ | .poolCall _ _ | .handle _ _ _ | .runHealthChecks _ _ => True

namespace Proxy

/-- A call of a session as a call on the proxy. -/
def opOf (px : Proxy) : SessionOp → ProxyOp
  | .setStickyHeader header => .setStickyHeader header
  | .addPool pool => .addPool pool
  | .poolCall name op =>
    .poolMut name (((px.pools name).getD (.new name .roundRobin .default)).apply op)
  | .handle now req replies => .handle now req replies
  | .runHealthChecks now probe => .runHealthChecks now probe

/-- A call of a session that the source can make. -/
def Takes (px : Proxy) : SessionOp → Prop
  | .addPool pool => pool.Reachable
  | .poolCall name op => ∃ pool, px.pools name = some pool ∧ pool.Accepts op
  | .setStickyHeader _ | .handle _ _ _ | .runHealthChecks _ _ => True

end Proxy

/-- The proxy as a system over the calls of a session. -/
def sessionSystem : System Proxy SessionOp where
  init px := ∃ router retry, px = .new router retry
  ok := Proxy.Takes
  step px op := px.apply (px.opOf op)

namespace Proxy

/-- A session makes calls that the proxy accepts. -/
theorem accepts_opOf {px : Proxy} (h : px.Reachable) {op : SessionOp} (hok : px.Takes op) :
    px.Accepts (px.opOf op) := by
  cases op with
  | addPool pool => exact hok
  | poolCall name op =>
    obtain ⟨pool, hpool, ha⟩ := hok
    have hreach := poolsOk_of_reachable h name pool hpool
    simp only [opOf, Accepts, hpool, Option.getD_some]
    exact ⟨System.Reachable.step (M := poolSystem) hreach ha, by simp⟩
  | _ => exact trivial

theorem reachable_step {px : Proxy} (h : px.Reachable) {op : SessionOp} (hok : px.Takes op) :
    (px.apply (px.opOf op)).Reachable :=
  System.Reachable.step (M := proxySystem) (a := px.opOf op) h (accepts_opOf h hok)

/-- The states of a session are reachable. -/
theorem reachable_exec {px : Proxy} (h : px.Reachable) {ops : List SessionOp}
    (hv : sessionSystem.Valid px ops) : (sessionSystem.exec px ops).Reachable :=
  System.Valid.invariant (M := sessionSystem) (I := Proxy.Reachable)
    (fun _ _ hq hok => reachable_step hq hok) h hv

/-! ## A session seen from one pool -/

/-- The calls that a request makes on the pool of `service`. -/
def handleCalls (service : String) (px : Proxy) (now : Nat) (req : Request)
    (replies : Nat → UpstreamReply) : List Op :=
  match px.pools service with
  | none => []
  | some pool =>
    if px.router.route req = some service then
      .poll now :: HandleLoop.loopCalls (px.arrive.callOf now req replies)
        (pool.backends.length + 1) (px.arrive.start pool now)
    else []

/-- The calls that a call of a session makes on the pool of `service`. -/
def callsOf (service : String) (px : Proxy) : SessionOp → List Op
  | .setStickyHeader _ | .addPool _ => []
  | .poolCall name op => if name = service then [op] else []
  | .handle now req replies => px.handleCalls service now req replies
  | .runHealthChecks now probe => [.runHealthChecks now (probe service)]

/-- A request that is routed to a pool polls it and runs its loop. -/
theorem handleCalls_of_routed {px : Proxy} {req : Request} {service : String} {pool : Pool}
    (hroute : px.router.route req = some service) (hpool : px.pools service = some pool)
    (now : Nat) (replies : Nat → UpstreamReply) :
    px.handleCalls service now req replies =
      .poll now :: HandleLoop.loopCalls (px.arrive.callOf now req replies)
        (pool.backends.length + 1) (px.arrive.start pool now) := by
  simp only [handleCalls, hpool, hroute, if_true]

/-- A request that is routed elsewhere makes no call. -/
theorem handleCalls_of_not_routed {px : Proxy} {req : Request} {service : String}
    (hroute : px.router.route req ≠ some service) (now : Nat)
    (replies : Nat → UpstreamReply) : px.handleCalls service now req replies = [] := by
  unfold handleCalls
  cases px.pools service with
  | none => rfl
  | some pool => exact if_neg hroute

/-- What a call of a session makes its pool do, by the three kinds of calls that reach it:
a direct call, a round of health checks, and a request that goes there. -/
theorem forall_mem_callsOf {px : Proxy} {service : String} {op : SessionOp} {Q : Op → Prop}
    (hdirect : ∀ call, op = .poolCall service call → Q call)
    (hcheck : ∀ now probe, op = .runHealthChecks now probe →
      Q (.runHealthChecks now (probe service)))
    (hrequest : ∀ now req replies, op = .handle now req replies →
      px.router.route req = some service → Q (.poll now) ∧
        ∀ call, HandleLoop.LoopCall (px.arrive.callOf now req replies) call → Q call) :
    ∀ call ∈ px.callsOf service op, Q call := by
  intro call hcall
  cases op with
  | setStickyHeader header => exact absurd hcall (by simp [callsOf])
  | addPool pool => exact absurd hcall (by simp [callsOf])
  | poolCall name op =>
    by_cases hn : name = service
    · obtain rfl : call = op := by simpa [callsOf, hn] using hcall
      exact hdirect call (by rw [hn])
    · exact absurd hcall (by simp [callsOf, hn])
  | runHealthChecks now probe =>
    obtain rfl := List.mem_singleton.mp hcall
    exact hcheck now probe rfl
  | handle now req replies =>
    unfold callsOf handleCalls at hcall
    cases hpool : px.pools service with
    | none => simp [hpool] at hcall
    | some pool =>
      simp only [hpool] at hcall
      split_ifs at hcall with hroute
      · obtain ⟨hpoll, hloop⟩ := hrequest now req replies rfl hroute
        rcases List.mem_cons.mp hcall with rfl | hcall
        · exact hpoll
        · exact hloop call (HandleLoop.loopCall_of_mem hcall)
      · simp at hcall

/-- A session makes its calls on a pool at its own times. -/
theorem time_callsOf (service : String) (px : Proxy) (op : SessionOp) {call : Op}
    (h : call ∈ px.callsOf service op) {t : Nat} (ht : call.time = some t) :
    op.time = some t := by
  have hall : ∀ call ∈ px.callsOf service op, ∀ t, call.time = some t → op.time = some t := by
    refine forall_mem_callsOf ?_ ?_ ?_
    · rintro call rfl t ht
      exact ht
    · rintro now probe rfl t ht
      exact ht
    · rintro now req replies rfl _
      refine ⟨fun t ht => ht, fun call hcall t ht => ?_⟩
      rw [hcall.time ht]
      rfl
  exact hall call h t ht

/-- A request with a pool, by its loop. -/
theorem handle_eq_loop {px : Proxy} {req : Request} {service : String} {pool : Pool}
    (hroute : px.router.route req = some service) (hpool : px.pools service = some pool)
    (now : Nat) (replies : Nat → UpstreamReply) :
    px.handle now req replies =
      (HandleLoop.loop (px.arrive.callOf now req replies) (pool.backends.length + 1)
        (px.arrive.start pool now)).map
        (fun r => (looped service r.1 r.2, px.arrive.finish service r.2)) := by
  have hrouter : px.arrive.router = px.router := rfl
  have hpools : px.arrive.pools = px.pools := rfl
  simp only [handle, hrouter, hroute, hpools, hpool]
  cases HandleLoop.loop (px.arrive.callOf now req replies) (pool.backends.length + 1)
    (px.arrive.start pool now) <;> rfl

/-- The loop of a request with a pool ends, and the request does to the pool what its
calls do. -/
theorem handle_calls {px : Proxy} (h : PoolsOk px) {req : Request} {service : String}
    {pool : Pool} (hroute : px.router.route req = some service)
    (hpool : px.pools service = some pool) (now : Nat) (replies : Nat → UpstreamReply) :
    ∃ response s,
      HandleLoop.loop (px.arrive.callOf now req replies) (pool.backends.length + 1)
        (px.arrive.start pool now) = some (response, s) ∧
      px.handle now req replies =
        some (looped service response s, px.arrive.finish service s) ∧
      poolSystem.Valid pool (px.handleCalls service now req replies) ∧
      s.pool = poolSystem.exec pool (px.handleCalls service now req replies) := by
  obtain ⟨response, s₁, s, hh, heq⟩ := handle_of_pool h hroute hpool now replies
  rw [handle_eq_loop hroute hpool] at heq
  obtain ⟨⟨response', s'⟩, hloop, hpair⟩ := Option.map_eq_some_iff.mp heq
  have hcalls := handleCalls_of_routed hroute hpool now replies
  have hreach : (px.arrive.start pool now).pool.Reachable :=
    (starts_start px.arrive (h service pool hpool) now).reachable
  obtain ⟨hv, hexec⟩ := HandleLoop.pool_loop hreach hloop
  refine ⟨response', s', hloop, ?_, ?_, ?_⟩
  · rw [handle_eq_loop hroute hpool, hloop]
    rfl
  · rw [hcalls]
    exact ⟨trivial, hv⟩
  · rw [hcalls]
    exact hexec

/-- One call of a session is a run of each pool that it keeps. -/
theorem pools_step {px : Proxy} (h : px.Reachable) {op : SessionOp} (hok : px.Takes op)
    {service : String} (hkeep : op.Keeps service) {pool : Pool}
    (hpool : px.pools service = some pool) :
    poolSystem.Valid pool (px.callsOf service op) ∧
      (px.apply (px.opOf op)).pools service =
        some (poolSystem.exec pool (px.callsOf service op)) := by
  have hp := poolsOk_of_reachable h
  cases op with
  | setStickyHeader header => exact ⟨trivial, hpool⟩
  | addPool q =>
    refine ⟨trivial, ?_⟩
    have hne : service ≠ q.name := fun he => hkeep he.symm
    simpa [opOf, apply, Proxy.addPool, Proxy.setPool, callsOf, hne] using hpool
  | poolCall name op =>
    obtain ⟨q, hq, ha⟩ := hok
    by_cases hn : name = service
    · subst hn
      obtain rfl : q = pool := Option.some.inj (hq.symm.trans hpool)
      simp only [callsOf, if_true]
      refine ⟨⟨ha, trivial⟩, ?_⟩
      simp [opOf, apply, Proxy.setPool, hq, poolSystem]
    · simp only [callsOf, if_neg hn]
      refine ⟨trivial, ?_⟩
      have hne : service ≠ name := Ne.symm hn
      simpa [opOf, apply, Proxy.setPool, hne] using hpool
  | runHealthChecks now probe =>
    refine ⟨⟨trivial, trivial⟩, ?_⟩
    simp [opOf, apply, Proxy.runHealthChecks, hpool, callsOf, poolSystem, Pool.apply]
  | handle now req replies =>
    by_cases hroute : px.router.route req = some service
    · obtain ⟨response, s, _, heq, hv, hexec⟩ := handle_calls hp hroute hpool now replies
      refine ⟨hv, ?_⟩
      simp only [opOf, apply, heq, Option.map_some, Option.getD_some, callsOf]
      rw [← hexec]
      simp [finish, setPool]
    · rw [callsOf, handleCalls_of_not_routed hroute]
      refine ⟨trivial, ?_⟩
      rcases handle_cases hp now req replies with
        ⟨_, heq⟩ | ⟨_, _, _, heq⟩ | ⟨other, q, response, s₁, s, hh, heq⟩
      · simpa [opOf, apply, heq, arrive] using hpool
      · simpa [opOf, apply, heq, arrive] using hpool
      · have hne : service ≠ other := fun he => hroute (he ▸ hh.routed)
        have hother := hh.pools.2 service hne
        simpa [opOf, apply, heq, hother] using hpool

/-- A session, seen from a pool that it keeps, is a run of the pool, at the times of
the session. -/
theorem pools_exec {px : Proxy} (h : px.Reachable) {service : String} {pool : Pool}
    (hpool : px.pools service = some pool) {ops : List SessionOp}
    (hv : sessionSystem.Valid px ops) (hkeep : ∀ op ∈ ops, op.Keeps service) :
    poolSystem.Valid pool (sessionSystem.calls (callsOf service) px ops) ∧
    (sessionSystem.exec px ops).pools service =
      some (poolSystem.exec pool (sessionSystem.calls (callsOf service) px ops)) ∧
    (Nondecreasing SessionOp.time ops →
      Nondecreasing Op.time (sessionSystem.calls (callsOf service) px ops)) := by
  obtain ⟨hvalid, _, hexec⟩ := hv.project (N := poolSystem) (f := callsOf service)
    (R := fun px pool => px.Reachable ∧ px.pools service = some pool)
    (Q := SessionOp.Keeps service)
    (fun q p op hq hok hk => by
      obtain ⟨hvs, hps⟩ := pools_step hq.1 hok hk hq.2
      exact ⟨hvs, reachable_step hq.1 hok, hps⟩)
    ⟨h, hpool⟩ hkeep
  exact ⟨hvalid, hexec,
    fun hn => hn.calls (fun q op call hc t ht => time_callsOf service q op hc ht)⟩

/-- What holds of the times of a session holds of the times of its calls on a pool. -/
theorem forall_time_calls {px : Proxy} {service : String} {P : Nat → Prop}
    {ops : List SessionOp} (ht : ∀ op ∈ ops, ∀ u, op.time = some u → P u) :
    ∀ call ∈ sessionSystem.calls (callsOf service) px ops, ∀ u, call.time = some u → P u :=
  (System.Always.of_forall (M := sessionSystem) px ht).forall_mem_calls
    (fun q op hop _ hcall u hu => hop u (time_callsOf service q op hcall hu))

/-- A total of a session is at most the total of its calls on a pool, if each call of the
session takes no more than its part. -/
theorem total_le_calls {px : Proxy} (h : px.Reachable) {service : String} {pool : Pool}
    (hpool : px.pools service = some pool) {ops : List SessionOp}
    (hv : sessionSystem.Valid px ops) (hkeep : ∀ op ∈ ops, op.Keeps service)
    {w : Proxy → SessionOp → Nat} {v : Pool → Op → Nat}
    (hstep : ∀ (q : Proxy) (p : Pool) (op : SessionOp), q.Reachable →
      q.pools service = some p → q.Takes op → op.Keeps service →
      w q op ≤ poolSystem.total v p (q.callsOf service op)) :
    sessionSystem.total w px ops ≤
      poolSystem.total v pool (sessionSystem.calls (callsOf service) px ops) := by
  refine System.Valid.total_le_calls (M := sessionSystem) (N := poolSystem)
    (f := callsOf service) (R := fun q p => q.Reachable ∧ q.pools service = some p)
    (Q := SessionOp.Keeps service) (fun q p op hq hok hk => ?_) ⟨h, hpool⟩ hv hkeep
  exact ⟨⟨reachable_step hq.1 hok, (pools_step hq.1 hok hk hq.2).2⟩,
    hstep q p op hq.1 hq.2 hok hk⟩

/-! ## What the calls of a session are -/

/-- No call of a session changes the routes. -/
theorem router_exec {px : Proxy} (h : px.Reachable) {ops : List SessionOp}
    (hv : sessionSystem.Valid px ops) :
    (sessionSystem.exec px ops).router = px.router := by
  induction ops generalizing px with
  | nil => rfl
  | cons op ops ih =>
    have hreach := reachable_step h hv.1
    refine (ih hreach hv.2).trans ?_
    show (px.apply (px.opOf op)).router = px.router
    cases op with
    | handle now req replies =>
      rcases handle_cases (poolsOk_of_reachable h) now req replies with
        ⟨_, heq⟩ | ⟨_, _, _, heq⟩ | ⟨_, _, _, _, _, _, heq⟩ <;>
        simp [opOf, apply, heq, arrive, finish, setPool]
    | _ => rfl

/-- What holds of the calls of each call of a session, whatever its pools are, holds of
the calls of the session. -/
theorem forall_mem_calls {px : Proxy} (h : px.Reachable) {service : String}
    {ops : List SessionOp} (hv : sessionSystem.Valid px ops) {Q : Op → Prop}
    (hops : ∀ op ∈ ops, ∀ q : Proxy, q.router = px.router → ∀ call ∈ q.callsOf service op,
      Q call) : ∀ call ∈ sessionSystem.calls (callsOf service) px ops, Q call := by
  induction ops generalizing px with
  | nil => simp
  | cons op ops ih =>
    have hreach := reachable_step h hv.1
    have hone : sessionSystem.Valid px [op] := ⟨hv.1, trivial⟩
    have hrouter : (px.apply (px.opOf op)).router = px.router := router_exec h hone
    refine List.forall_mem_append.mpr ⟨hops op (by simp) px rfl, ?_⟩
    exact ih hreach hv.2 (fun o ho q hq => hops o (by simp [ho]) q (hq.trans hrouter))

end Proxy

end Echofront
