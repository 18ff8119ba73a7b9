import Echofront.Proxy.Order

/-!
# Services apart

The services of a proxy share the retry budget and the name of the sticky header, and
nothing else.

`Service` is one service on its own: its pool, and requests that come with the number of
retries that they are allowed.  It has no budget.  `loop_alike` says that the loop of
`Proxy::handle` reads no more of the budget than this number, and `service_step` is the
projection of one call of a session.

`services_isolated` is the result for two sessions.  If they make the same calls on a
service and allow its requests the same retries, then they do the same to it, whatever
they do to the other services.
-/

namespace Echofront

open Lib

/-! ## The loop without the budget -/

/-- A budget that never denies a retry. -/
def RetryBudget.free : RetryBudget := .new ⟨0, 0, 0, 0⟩

theorem RetryBudget.grants_free (j : Nat) : free.grants j = true :=
  (grants_of_tokens (b := free) (by decide) (by decide) (by simp [free, RetryBudget.new])).1

/-- The first of a row of retries. -/
theorem RetryBudget.grants_succ (b : RetryBudget) (j : Nat) :
    b.grants (j + 1) = (b.tryRetry.1 && b.tryRetry.2.grants j) := by
  have hspend : ∀ k, b.tryRetry.2.spend k = b.spend (k + 1) := by
    intro k
    induction k with
    | zero => rfl
    | succ k ih => rw [spend, ih, ← spend]
  induction j with
  | zero => simp [grants, spend]
  | succ j ih =>
    rw [grants, ih, grants, hspend, Bool.and_assoc]

/-- The budget and a limit let a request retry as often as `affords` says. -/
theorem RetryBudget.le_affords {b : RetryBudget} {j n : Nat} :
    j ≤ b.affords n ↔ j ≤ n ∧ b.grants j = true := by
  constructor
  · intro h
    have hj := Nat.le_trans h (b.affords_le n)
    exact ⟨hj, (le_affords_iff hj).mp h⟩
  · exact fun h => (le_affords_iff h.1).mpr h.2

namespace HandleLoop

variable {c : Call} {s t : HandleLoop} {n : Nat}

/-- A request is retried. -/
theorem retry_again {maxRetries : Nat}
    (h : s.attemptNo ≤ maxRetries ∧ s.budget.tryRetry.1 = true) :
    s.retry maxRetries = .again
      { s with budget := s.budget.tryRetry.2, totalRetries := s.totalRetries + 1 } := by
  rcases retry_cases s maxRetries with ⟨hlim, _⟩ | ⟨_, hg, _⟩ | ⟨_, _, hr⟩
  · exact absurd h.1 (Nat.not_le_of_lt hlim)
  · exact absurd (hg.symm.trans h.2) (by simp)
  · exact hr

/-- It is not. -/
theorem retry_finished {maxRetries : Nat}
    (h : ¬ (s.attemptNo ≤ maxRetries ∧ s.budget.tryRetry.1 = true)) :
    ∃ b, s.retry maxRetries =
      .finished (.error (.allAttemptsFailed s.attemptNo)) { s with budget := b } := by
  rcases retry_cases s maxRetries with ⟨_, hr⟩ | ⟨_, _, hr⟩ | ⟨hle, hg, _⟩
  · exact ⟨s.budget, hr⟩
  · exact ⟨_, hr⟩
  · exact absurd ⟨hle, hg⟩ h

/-- The same loop on another budget. -/
def recount (s : HandleLoop) (b : RetryBudget) (retries failovers : Nat) : HandleLoop :=
  { s with budget := b, totalRetries := retries, totalFailovers := failovers }

/-- The limit of `c` and the budget of `s` allow as many retries as the limit `n` and the
budget `b`. -/
def SameAllowance (c : Call) (s : HandleLoop) (n : Nat) (b : RetryBudget) : Prop :=
  ∀ j, 0 < j → ((s.attemptNo + j ≤ n ∧ b.grants j = true) ↔
    (s.attemptNo + j ≤ c.maxRetries ∧ s.budget.grants j = true))

/-- What a request shows of the loop, and the pool that it leaves. -/
def shown (r : Except ProxyError Response × HandleLoop) :
    Except ProxyError Response × Pool × List Attempt × Option Nat :=
  (r.1, r.2.pool, r.2.attempts, r.2.firstSelected)

/-- The loop reads of the budget how many retries it allows. -/
theorem loop_recount {b : RetryBudget} (h : SameAllowance c s n b) (retries failovers : Nat)
    (fuel : Nat) :
    (loop { c with maxRetries := n } fuel (s.recount b retries failovers)).map shown =
      (loop c fuel s).map shown := by
  induction fuel generalizing s b retries failovers with
  | zero => rfl
  | succ fuel ih =>
    rw [loop, loop]
    cases hsel : (s.pool.select c.now c.key s.tried).1 with
    | none =>
      rw [turn_of_none hsel, turn_of_none (c := { c with maxRetries := n })
        (s := s.recount b retries failovers) hsel]
      rfl
    | some idx =>
      rcases turn_of_select hsel with ⟨resp, hreply, hturn⟩ | ⟨e, hreply, hturn⟩ <;>
        rcases turn_of_select (c := { c with maxRetries := n })
          (s := s.recount b retries failovers) hsel with
          ⟨resp', hreply', hturn'⟩ | ⟨e', hreply', hturn'⟩
      · obtain rfl : resp' = resp := Except.ok.inj (hreply'.symm.trans hreply)
        rw [hturn, hturn']
        rfl
      · exact absurd (hreply'.symm.trans hreply) (by simp)
      · exact absurd (hreply'.symm.trans hreply) (by simp)
      · obtain rfl : e' = e := Except.error.inj (hreply'.symm.trans hreply)
        rw [hturn, hturn']
        -- the states after the failure agree as those before it
        generalize hs : (asking c s idx).fail c.now idx e' (c.replies idx).latencyMs = s₁
        have hno : s₁.attemptNo = s.attemptNo + 1 := by rw [← hs]; rfl
        have hb : s₁.budget = s.budget := by rw [← hs]; rfl
        obtain ⟨f, ht⟩ : ∃ f, (asking { c with maxRetries := n } (s.recount b retries failovers)
            idx).fail c.now idx e' (c.replies idx).latencyMs = s₁.recount b retries f := by
          rw [← hs]
          exact ⟨_, rfl⟩
        rw [ht]
        have hfirst := h 1 Nat.one_pos
        have hgrants : ∀ b : RetryBudget, b.grants 1 = b.tryRetry.1 := fun b => by
          rw [RetryBudget.grants_succ, RetryBudget.grants, Bool.and_true]
        rw [hgrants, hgrants] at hfirst
        by_cases hgo : s₁.attemptNo ≤ c.maxRetries ∧ s₁.budget.tryRetry.1 = true
        · have hgo' : (s₁.recount b retries f).attemptNo ≤ n ∧
              (s₁.recount b retries f).budget.tryRetry.1 = true := by
            show s₁.attemptNo ≤ n ∧ b.tryRetry.1 = true
            rw [hno] at hgo ⊢
            rw [hb] at hgo
            exact hfirst.mpr hgo
          rw [retry_again hgo, retry_again hgo']
          refine ih (s := { s₁ with
            budget := s₁.budget.tryRetry.2, totalRetries := s₁.totalRetries + 1 })
            (fun j hj => ?_) (retries + 1) f
          have hrest := h (j + 1) (Nat.succ_pos j)
          have hpay : b.tryRetry.1 = true := hgo'.2
          rw [hb] at hgo
          simp only [RetryBudget.grants_succ, hgo.2, hpay, Bool.true_and] at hrest
          have hadd : s.attemptNo + (j + 1) = s.attemptNo + 1 + j := by omega
          simp only [hno, hb, hadd] at hrest ⊢
          exact hrest
        · have hgo' : ¬ ((s₁.recount b retries f).attemptNo ≤ n ∧
              (s₁.recount b retries f).budget.tryRetry.1 = true) := by
            show ¬ (s₁.attemptNo ≤ n ∧ b.tryRetry.1 = true)
            rw [hno] at hgo ⊢
            rw [hb] at hgo
            exact fun hgo' => hgo (hfirst.mp hgo')
          obtain ⟨b₁, hr⟩ := retry_finished hgo
          obtain ⟨b₂, hr'⟩ := retry_finished hgo'
          rw [hr, hr']
          rfl

end HandleLoop

/-! ## One service -/

/-- One service on its own. -/
structure Service where
  pool : Option Pool
  stickyHeader : String

/-- What a session does to one service.  A request comes with the retries that it is
allowed. -/
inductive ServiceOp where
  | setStickyHeader (header : String)
  | addPool (pool : Pool)
  | call (op : Op)
  | handle (now : Nat) (req : Request) (replies : Nat → UpstreamReply) (allowed : Nat)

namespace Service

/-- A request to the service `name`. -/
def handle (name : String) (st : Service) (now : Nat) (req : Request)
    (replies : Nat → UpstreamReply) (allowed : Nat) : Option (HandleResult × Service) :=
  match st.pool with
  | none => some (Proxy.unrouted (some name), st)
  | some pool =>
    let c : Call := ⟨now, (req.header st.stickyHeader).or req.host, allowed, replies⟩
    match HandleLoop.loop c (pool.backends.length + 1)
        ⟨pool.poll now, .free, 0, 0, [], [], none, 0⟩ with
    | none => none
    | some (response, s) =>
      some (Proxy.looped name response s, { st with pool := some s.pool })

def apply (name : String) (st : Service) : ServiceOp → Service
  | .setStickyHeader header => { st with stickyHeader := header }
  | .addPool pool => { st with pool := some pool }
  | .call op => { st with pool := st.pool.map (·.apply op) }
  | .handle now req replies allowed =>
    ((st.handle name now req replies allowed).map Prod.snd).getD st

/-- The result of a request. -/
def result (name : String) (st : Service) : ServiceOp → Option (Option HandleResult)
  | .handle now req replies allowed =>
    some ((st.handle name now req replies allowed).map Prod.fst)
  | _ => none

end Service

/-- A service as a system. -/
def serviceSystem (name : String) : System Service ServiceOp where
  init st := st.pool = none
  ok _ _ := True
  step := Service.apply name

namespace Proxy

/-- What a call of a session does to `service`. -/
def serviceOps (service : String) (px : Proxy) : SessionOp → List ServiceOp
  | .setStickyHeader header => [.setStickyHeader header]
  | .addPool pool => if pool.name = service then [.addPool pool] else []
  | .poolCall name op => if name = service then [.call op] else []
  | .handle now req replies =>
    if px.router.route req = some service then
      [.handle now req replies px.retriesAllowed] else []
  | .runHealthChecks now probe => [.call (.runHealthChecks now (probe service))]

/-- The result of a request to `service`. -/
def resultOf (service : String) (px : Proxy) : SessionOp → Option (Option HandleResult)
  | .handle now req replies =>
    if px.router.route req = some service then
      some ((px.handle now req replies).map Prod.fst) else none
  | _ => none

/-- `st` is the service `service` of the proxy. -/
structure Serves (service : String) (px : Proxy) (st : Service) : Prop where
  pool : st.pool = px.pools service
  stickyHeader : st.stickyHeader = px.stickyHeader

/-- A request, seen from its service. -/
theorem handle_service {px : Proxy} {service : String} {st : Service}
    (h : Serves service px st) {req : Request} (hroute : px.router.route req = some service)
    (now : Nat) (replies : Nat → UpstreamReply) :
    (px.handle now req replies).map (fun r => (r.1, r.2.pools service, r.2.stickyHeader)) =
      (st.handle service now req replies px.retriesAllowed).map
        (fun r => (r.1, r.2.pool, r.2.stickyHeader)) := by
  cases hpool : px.pools service with
  | none =>
    have hrouter : px.arrive.router = px.router := rfl
    have hpools : px.arrive.pools = px.pools := rfl
    have hnone : st.pool = none := h.pool.trans hpool
    simp only [handle, Service.handle, hrouter, hroute, hpools, hpool, hnone, Option.map_some,
      h.stickyHeader]
    rfl
  | some pool =>
    have hsome : st.pool = some pool := h.pool.trans hpool
    have hallowed : HandleLoop.SameAllowance (px.arrive.callOf now req replies)
        (px.arrive.start pool now) px.retriesAllowed .free := by
      intro j _
      show (0 + j ≤ px.retriesAllowed ∧ RetryBudget.free.grants j = true) ↔
        (0 + j ≤ px.budget.maxRetriesPerRequest ∧ px.budget.onRequest.grants j = true)
      rw [RetryBudget.grants_free, Nat.zero_add, retriesAllowed, RetryBudget.le_affords]
      simp
    have hloop := HandleLoop.loop_recount hallowed 0 0 (pool.backends.length + 1)
    have hfree : HandleLoop.loop
        ⟨now, (req.header px.stickyHeader).or req.host, px.retriesAllowed, replies⟩
        (pool.backends.length + 1) ⟨pool.poll now, .free, 0, 0, [], [], none, 0⟩ =
        HandleLoop.loop
          { px.arrive.callOf now req replies with maxRetries := px.retriesAllowed }
          (pool.backends.length + 1) ((px.arrive.start pool now).recount .free 0 0) := rfl
    rw [handle_eq_loop hroute hpool]
    simp only [Service.handle, hsome, h.stickyHeader, hfree]
    cases hx : HandleLoop.loop (px.arrive.callOf now req replies) (pool.backends.length + 1)
        (px.arrive.start pool now) with
    | none =>
      rw [hx] at hloop
      rw [Option.map_eq_none_iff.mp hloop]
      rfl
    | some r =>
      rw [hx] at hloop
      obtain ⟨t, ht, hshown⟩ := Option.map_eq_some_iff.mp hloop
      rw [ht]
      simp only [HandleLoop.shown, Prod.mk.injEq] at hshown
      obtain ⟨hresponse, hpool', hattempts, hfirst⟩ := hshown
      simp [looped, hresponse, hpool', hattempts, hfirst, finish, setPool, arrive]

/-- One call of a session, seen from one service. -/
theorem service_step (service : String) {px : Proxy} {st : Service}
    (h : px.Reachable ∧ Serves service px st) {op : SessionOp} (hok : px.Takes op) :
    ((px.apply (px.opOf op)).Reachable ∧ Serves service (px.apply (px.opOf op))
        ((serviceSystem service).exec st (serviceOps service px op))) ∧
      (serviceSystem service).events (Service.result service) st (serviceOps service px op) =
        (resultOf service px op).toList := by
  obtain ⟨hreach, hs⟩ := h
  have hnext := reachable_step hreach hok
  refine and_assoc.mpr ⟨hnext, ?_⟩
  cases op with
  | setStickyHeader header => exact ⟨⟨hs.pool, rfl⟩, rfl⟩
  | addPool pool =>
    by_cases hn : pool.name = service
    · simp only [serviceOps, if_pos hn]
      refine ⟨⟨?_, hs.stickyHeader⟩, rfl⟩
      simp [serviceSystem, Service.apply, opOf, Proxy.apply, Proxy.addPool, setPool, hn]
    · simp only [serviceOps, if_neg hn]
      refine ⟨⟨?_, hs.stickyHeader⟩, rfl⟩
      have hne : service ≠ pool.name := Ne.symm hn
      simpa [opOf, Proxy.apply, Proxy.addPool, setPool, hne] using hs.pool
  | poolCall name op =>
    obtain ⟨pool, hpool, _⟩ := hok
    by_cases hn : name = service
    · subst hn
      simp only [serviceOps, if_true]
      refine ⟨⟨?_, hs.stickyHeader⟩, rfl⟩
      simp [serviceSystem, Service.apply, opOf, Proxy.apply, setPool, hs.pool, hpool]
    · simp only [serviceOps, if_neg hn]
      refine ⟨⟨?_, hs.stickyHeader⟩, rfl⟩
      have hne : service ≠ name := Ne.symm hn
      simpa [opOf, Proxy.apply, setPool, hne] using hs.pool
  | runHealthChecks now probe =>
    refine ⟨⟨?_, hs.stickyHeader⟩, rfl⟩
    simp [serviceOps, serviceSystem, Service.apply, opOf, Proxy.apply, Proxy.runHealthChecks,
      hs.pool, Pool.apply]
  | handle now req replies =>
    by_cases hroute : px.router.route req = some service
    · have hrequest := handle_service hs hroute now replies
      simp only [serviceOps, resultOf, if_pos hroute]
      show Serves service (((px.handle now req replies).map Prod.snd).getD px)
          (((st.handle service now req replies px.retriesAllowed).map Prod.snd).getD st) ∧
        [(st.handle service now req replies px.retriesAllowed).map Prod.fst] =
          [(px.handle now req replies).map Prod.fst]
      cases hx : px.handle now req replies with
      | none =>
        rw [hx] at hrequest
        rw [Option.map_eq_none_iff.mp hrequest.symm]
        exact ⟨hs, rfl⟩
      | some r =>
        rw [hx] at hrequest
        obtain ⟨t, ht, hread⟩ := Option.map_eq_some_iff.mp hrequest.symm
        obtain ⟨hresult, hrest⟩ := Prod.mk.inj hread
        obtain ⟨hpool, hheader⟩ := Prod.mk.inj hrest
        rw [ht]
        exact ⟨⟨hpool, hheader⟩, by simp [hresult]⟩
    · simp only [serviceOps, resultOf, if_neg hroute]
      refine ⟨?_, rfl⟩
      show Serves service (((px.handle now req replies).map Prod.snd).getD px) st
      rcases handle_cases (poolsOk_of_reachable hreach) now req replies with
        ⟨_, heq⟩ | ⟨_, _, _, heq⟩ | ⟨other, q, response, s₁, s, hh, heq⟩
      · rw [heq]
        exact ⟨hs.pool, hs.stickyHeader⟩
      · rw [heq]
        exact ⟨hs.pool, hs.stickyHeader⟩
      · have hne : service ≠ other := fun he => hroute (he ▸ hh.routed)
        rw [heq]
        exact ⟨hs.pool.trans (hh.pools.2 service hne).symm, hs.stickyHeader⟩

/-- The retry budget is the only channel between services.  Take two sessions, from two
proxies with the same pool for `service` and the same sticky header.  If both make the
same calls on the service, its requests with the same replies and the same number of
retries allowed, then all its requests have the same results and its pool ends the same,
whatever the sessions do to other services. -/
theorem services_isolated {px qx : Proxy} (hp : px.Reachable) (hq : qx.Reachable)
    {service : String} (hpool : px.pools service = qx.pools service)
    (hheader : px.stickyHeader = qx.stickyHeader) {ops ops' : List SessionOp}
    (hv : sessionSystem.Valid px ops) (hv' : sessionSystem.Valid qx ops')
    (hsame : sessionSystem.calls (serviceOps service) px ops =
      sessionSystem.calls (serviceOps service) qx ops') :
    (sessionSystem.exec px ops).pools service = (sessionSystem.exec qx ops').pools service ∧
      sessionSystem.events (resultOf service) px ops =
        sessionSystem.events (resultOf service) qx ops' := by
  have hstep := fun (r : Proxy) (st : Service) (op : SessionOp)
    (h : r.Reachable ∧ Serves service r st) (hok : sessionSystem.ok r op) =>
      service_step service h hok
  obtain ⟨⟨_, hserves⟩, hevents⟩ := System.Valid.project_events (N := serviceSystem service)
    hstep (t := ⟨px.pools service, px.stickyHeader⟩) ⟨hp, rfl, rfl⟩ hv
  obtain ⟨⟨_, hserves'⟩, hevents'⟩ := System.Valid.project_events (N := serviceSystem service)
    hstep (t := ⟨px.pools service, px.stickyHeader⟩) ⟨hq, hpool, hheader⟩ hv'
  rw [hsame] at hserves hevents
  exact ⟨hserves.pool.symm.trans hserves'.pool, hevents.symm.trans hevents'⟩

/-- A service with one backend. -/
def web : Pool :=
  (Pool.new "web" .roundRobin .default).addBackend (Backend.new "c" 1 .default .default)

/-- A proxy with two services. -/
def twoServices : Proxy :=
  ((Proxy.new ⟨[.new none "/" "api", .new none "/web" "web"]⟩ .default).addPool
    .twoBackends).addPool web

theorem reachable_twoServices : twoServices.Reachable := by
  have hweb : web.Reachable :=
    ⟨.new "web" .roundRobin .default, [.addBackend (.new "c" 1 .default .default)],
      ⟨_, _, _, rfl⟩, ⟨Backend.fresh_new _ _ _ _, trivial⟩, rfl⟩
  exact ⟨_, [.addPool .twoBackends, .addPool web], ⟨_, _, rfl⟩,
    ⟨Pool.reachable_twoBackends, hweb, trivial⟩, rfl⟩

/-- A request that fails on the one service, or none: the other service does not see it. -/
theorem services_isolated_two :
    let first : SessionOp := .handle 5 (.new .get "/") (fun _ => ⟨.ok (.new 200), 3⟩)
    let failed : SessionOp := .handle 6 (.new .get "/web") (fun _ => ⟨.error .timeout, 7⟩)
    let last : SessionOp := .handle 7 (.new .get "/") (fun _ => ⟨.ok (.new 200), 3⟩)
    (sessionSystem.exec twoServices [first, failed, last]).pools "api" =
      (sessionSystem.exec twoServices [first, last]).pools "api" := by
  intro first failed last
  have hv : sessionSystem.Valid twoServices [first, failed, last] :=
    ⟨trivial, trivial, trivial, trivial⟩
  have hv' : sessionSystem.Valid twoServices [first, last] := ⟨trivial, trivial, trivial⟩
  have hother : (sessionSystem.exec twoServices [first]).router.route (.new .get "/web") ≠
      some "api" := by decide
  have hweb : serviceOps "api" (sessionSystem.exec twoServices [first]) failed = [] := by
    simp only [failed, serviceOps, if_neg hother]
  have hlast : ∀ q : Proxy, q.router.route (.new .get "/") = some "api" →
      serviceOps "api" q last = [.handle 7 (.new .get "/") (fun _ => ⟨.ok (.new 200), 3⟩)
        q.retriesAllowed] := fun q hroute => by simp only [last, serviceOps, if_pos hroute]
  have hallowed : (sessionSystem.exec twoServices [first, failed]).retriesAllowed =
      (sessionSystem.exec twoServices [first]).retriesAllowed := by decide
  have hsame : sessionSystem.calls (serviceOps "api") twoServices [first, failed, last] =
      sessionSystem.calls (serviceOps "api") twoServices [first, last] := by
    show _ ++ (serviceOps "api" (sessionSystem.exec twoServices [first]) failed ++
        (serviceOps "api" (sessionSystem.exec twoServices [first, failed]) last ++ [])) =
      _ ++ (serviceOps "api" (sessionSystem.exec twoServices [first]) last ++ [])
    rw [hweb, hlast _ (by decide), hlast _ (by decide), hallowed]
    rfl
  exact (services_isolated reachable_twoServices reachable_twoServices rfl rfl hv hv' hsame).1

end Proxy

end Echofront
