import Echofront.Pool.Order
import Echofront.Proxy.Failover
import Echofront.Proxy.Session

/-!
# A request follows the order of failover

`walk` is the retry loop without a pool: it goes down a list of backends until one
answers, the limit is reached or the bucket denies a retry.  `loop_walk` is the
refinement: the loop of `Proxy::handle` is the walk down `Pool.failoverOrder`, which is
fixed before the first reply.  What the calls and the recorded outcomes of a request do to
its pool changes nothing in what the request asks next.

`walk_planned` says in closed form how far the walk goes.
-/

namespace Echofront

open Lib

/-- What is left of a request when its pool is forgotten. -/
structure Walk where
  asked : List Nat
  response : Except ProxyError Response
  budget : RetryBudget

namespace HandleLoop

/-- The retry loop on a list of backends, after `n` failures. -/
def walk (c : Call) : List Nat → Nat → RetryBudget → Walk
  | [], n, b => ⟨[], .error (if n = 0 then .noHealthyUpstream else .allAttemptsFailed n), b⟩
  | i :: is, n, b =>
    match (c.replies i).outcome with
    | .ok resp => ⟨[i], .ok resp, b⟩
    | .error _ =>
      if c.maxRetries < n + 1 then ⟨[i], .error (.allAttemptsFailed (n + 1)), b⟩
      else if b.tryRetry.1 then
        let w := walk c is (n + 1) b.tryRetry.2
        ⟨i :: w.asked, w.response, w.budget⟩
      else ⟨[i], .error (.allAttemptsFailed (n + 1)), b.tryRetry.2⟩

variable {c : Call} {s s' : HandleLoop}

/-! ## The loop is a walk -/

/-- What a turn that selects `idx` does to the pool does not show without `idx`. -/
theorem agreeOff_fail {q : Pool} (h : Pool.AgreeOff s.tried q s.pool) (idx : Nat)
    (e : UpstreamError) (latencyMs : Nat) :
    Pool.AgreeOff (s.tried ++ [idx]) (q.select c.now c.key s.tried).2
      ((asking c s idx).fail c.now idx e latencyMs).pool := by
  have hmem : idx ∈ s.tried ++ [idx] := by simp
  have hsel := (h.select c.now c.key).2.mono idx
  exact ((hsel.modify_right hmem _).modify_right hmem _).modify_right hmem _

/-- The loop is the walk down the order of failover of any pool that differs from its own
in tried backends only. -/
theorem loop_walk {fuel n : Nat} {q : Pool} {response : Except ProxyError Response}
    (hq : Pool.AgreeOff s.tried q s.pool) (hempty : s.attempts = [] ↔ s.attemptNo = 0)
    (hle : fuel ≤ n) (hl : loop c fuel s = some (response, s')) :
    s'.attempts.map Attempt.backend = s.attempts.map Attempt.backend ++
        (walk c (q.failoverOrder c.now c.key n s.tried) s.attemptNo s.budget).asked ∧
      response = (walk c (q.failoverOrder c.now c.key n s.tried) s.attemptNo s.budget).response ∧
      s'.budget = (walk c (q.failoverOrder c.now c.key n s.tried) s.attemptNo s.budget).budget := by
  induction fuel generalizing s n q with
  | zero => simp [loop] at hl
  | succ fuel ih =>
    obtain ⟨n, rfl⟩ : ∃ k, n = k + 1 := ⟨n - 1, by omega⟩
    have hpick := (hq.select c.now c.key).1
    rw [loop] at hl
    cases hsel : (s.pool.select c.now c.key s.tried).1 with
    | none =>
      rw [turn_of_none hsel] at hl
      obtain ⟨rfl, rfl⟩ := Prod.mk.inj (Option.some.inj hl)
      rw [Pool.failoverOrder_of_none (hpick.symm.trans hsel), walk, unselected]
      refine ⟨by simp, ?_, rfl⟩
      simp only [List.isEmpty_iff, hempty]
    | some idx =>
      rw [Pool.failoverOrder_of_some (hpick.symm.trans hsel), walk]
      rcases turn_of_select hsel with ⟨resp, hreply, hturn⟩ | ⟨e, hreply, hturn⟩
      · rw [hturn] at hl
        obtain ⟨rfl, rfl⟩ := Prod.mk.inj (Option.some.inj hl)
        simp only [hreply]
        exact ⟨by simp [succeed, asking, ask, attempt], trivial, rfl⟩
      · have hno : ((asking c s idx).fail c.now idx e (c.replies idx).latencyMs).attemptNo =
            s.attemptNo + 1 := rfl
        have hbudget : ((asking c s idx).fail c.now idx e (c.replies idx).latencyMs).budget =
            s.budget := rfl
        have hatt : ((asking c s idx).fail c.now idx e
            (c.replies idx).latencyMs).attempts.map Attempt.backend =
            s.attempts.map Attempt.backend ++ [idx] := by
          simp [fail, asking, ask, attempt]
        have hagree := agreeOff_fail (c := c) hq idx e (c.replies idx).latencyMs
        rw [hturn] at hl
        simp only [hreply]
        generalize hs : (asking c s idx).fail c.now idx e (c.replies idx).latencyMs = s₁ at *
        have htried : s₁.tried = s.tried ++ [idx] := by rw [← hs]; rfl
        rcases retry_cases s₁ c.maxRetries with ⟨hlim, hr⟩ | ⟨hlim, hg, hr⟩ | ⟨hlim, hg, hr⟩
        · rw [hr] at hl
          obtain ⟨rfl, rfl⟩ := Prod.mk.inj (Option.some.inj hl)
          rw [hno] at hlim
          simp only [if_pos hlim, hno]
          exact ⟨hatt, trivial, hbudget⟩
        · rw [hr] at hl
          obtain ⟨rfl, rfl⟩ := Prod.mk.inj (Option.some.inj hl)
          rw [hno] at hlim
          rw [hbudget] at hg
          simp only [if_neg (Nat.not_lt.mpr hlim), hg, hno, hbudget]
          exact ⟨hatt, rfl, rfl⟩
        · rw [hr] at hl
          rw [hno] at hlim
          rw [hbudget] at hg
          have hrest := ih (s := { s₁ with
              budget := s₁.budget.tryRetry.2, totalRetries := s₁.totalRetries + 1 })
            (n := n) (q := (q.select c.now c.key s.tried).2)
            (by simpa only [htried] using hagree)
            (by
              have hne : s₁.attempts ≠ [] := fun h0 => by simp [h0] at hatt
              simp [hne, hno])
            (Nat.le_of_succ_le_succ hle) hl
          simp only [htried, hno, hbudget, hatt, List.append_assoc, List.singleton_append]
            at hrest
          simp only [if_neg (Nat.not_lt.mpr hlim), hg, if_true]
          exact hrest

/-! ## How far the walk goes -/

/-- What the walk down `order` after `n` failures comes to, if the first `k` backends of
`order` fail and the limit and the bucket together allow `r` retries. -/
structure Planned (c : Call) (b : RetryBudget) (order : List Nat) (n k r : Nat) (w : Walk) :
    Prop where
  asked : w.asked = order.take (min k (r - n) + 1)
  answered : ∀ i, order[k]? = some i → n + k ≤ r →
    ∃ resp, (c.replies i).outcome = .ok resp ∧ w.response = .ok resp
  failed : order.length ≤ k ∨ r < n + k → w.response = .error
    (if n = 0 ∧ order = [] then .noHealthyUpstream else .allAttemptsFailed (min (n + k) (r + 1)))
  budget : w.budget = b.spend (min (n + k) (min c.maxRetries (r + 1)))

/-- How many backends at the head of `order` fail. -/
def failingHead (replies : Nat → UpstreamReply) (order : List Nat) : Nat :=
  (order.takeWhile (fun i => !(replies i).isOk)).length

theorem walk_planned (c : Call) {b : RetryBudget} (order : List Nat) {n : Nat}
    (hn : n ≤ c.maxRetries) (hg : b.grants n = true) :
    Planned c b order n (failingHead c.replies order) (b.affords c.maxRetries)
      (walk c order n (b.spend n)) := by
  have hr := b.affords_le c.maxRetries
  have hnr : n ≤ b.affords c.maxRetries := (RetryBudget.le_affords_iff hn).mpr hg
  induction order generalizing n with
  | nil =>
    rw [walk]
    refine ⟨rfl, by simp, fun _ => ?_, ?_⟩
    · have hmin : min n (b.affords c.maxRetries + 1) = n := by omega
      simp [failingHead, hmin]
    · have hmin : min n (min c.maxRetries (b.affords c.maxRetries + 1)) = n := by omega
      simp [failingHead, hmin]
  | cons i is ih =>
    rw [walk]
    cases hreply : (c.replies i).outcome with
    | ok resp =>
      have hk : failingHead c.replies (i :: is) = 0 := by
        simp [failingHead, UpstreamReply.isOk, hreply]
      rw [hk]
      have hmin : min n (min c.maxRetries (b.affords c.maxRetries + 1)) = n := by omega
      refine ⟨by simp, fun j hj _ => ?_, fun hf => ?_, by simp [hmin]⟩
      · obtain rfl : i = j := by simpa using hj
        exact ⟨resp, hreply, rfl⟩
      · simp only [List.length_cons] at hf
        omega
    | error e =>
      have hk : failingHead c.replies (i :: is) = failingHead c.replies is + 1 := by
        simp [failingHead, UpstreamReply.isOk, hreply]
      rw [hk]
      simp only
      by_cases hlim : c.maxRetries < n + 1
      · -- the limit of the request is reached
        have hrn : b.affords c.maxRetries = n := by omega
        rw [if_pos hlim, hrn]
        refine ⟨by simp, fun j _ hle => absurd hle (by omega), fun _ => by simp, ?_⟩
        · have hmin : min (n + (failingHead c.replies is + 1)) (min c.maxRetries (n + 1)) = n := by
            omega
          rw [hmin]
      · rw [if_neg hlim]
        have hn' : n + 1 ≤ c.maxRetries := Nat.le_of_not_lt hlim
        have hspend : (b.spend n).tryRetry.2 = b.spend (n + 1) := rfl
        have hgrants : b.grants (n + 1) = (b.spend n).tryRetry.1 := by
          rw [RetryBudget.grants, hg, Bool.true_and]
        by_cases hpay : (b.spend n).tryRetry.1 = true
        · -- the retry is granted and the walk goes on
          rw [if_pos hpay, hspend]
          have hnr' : n + 1 ≤ b.affords c.maxRetries :=
            (RetryBudget.le_affords_iff hn').mpr (hgrants.trans hpay)
          have hrest := ih hn' (hgrants.trans hpay) hnr'
          have hadd : n + (failingHead c.replies is + 1) = n + 1 + failingHead c.replies is := by
            omega
          refine ⟨?_, fun j hj hle => ?_, fun hf => ?_, ?_⟩
          · have hmin : min (failingHead c.replies is + 1) (b.affords c.maxRetries - n) =
                min (failingHead c.replies is) (b.affords c.maxRetries - (n + 1)) + 1 := by omega
            simp only [hrest.asked, hmin, List.take_succ_cons]
          · exact hrest.answered j (by simpa using hj) (by omega)
          · rw [hrest.failed (by simp only [List.length_cons] at hf; omega), hadd]
            simp
          · rw [hrest.budget, hadd]
        · -- the bucket denies it
          have hrn : b.affords c.maxRetries = n := by
            have hdenied : ¬ n + 1 ≤ b.affords c.maxRetries := fun hle =>
              hpay (hgrants.symm.trans ((RetryBudget.le_affords_iff hn').mp hle))
            omega
          rw [if_neg hpay, hspend, hrn]
          refine ⟨by simp, fun j _ hle => absurd hle (by omega), fun _ => by simp, ?_⟩
          · have hmin : min (n + (failingHead c.replies is + 1)) (min c.maxRetries (n + 1)) =
                n + 1 := by omega
            rw [hmin]

end HandleLoop

namespace Proxy

open HandleLoop (failingHead)

/-- The order in which a request to `pool` asks its backends as long as they fail. -/
def failoverOrder (px : Proxy) (pool : Pool) (now : Nat) (req : Request) : List Nat :=
  (pool.poll now).failoverOrder now (px.stickyKey req) (pool.backends.length + 1) []

/-- The retries that the limit of a request and the bucket allow the next request. -/
def retriesAllowed (px : Proxy) : Nat :=
  px.budget.onRequest.affords px.budget.maxRetriesPerRequest

/-- A request is the walk down its order of failover. -/
theorem handle_planned {px : Proxy} (h : PoolsOk px) {service : String} {pool : Pool}
    {req : Request} (hroute : px.router.route req = some service)
    (hpool : px.pools service = some pool) (now : Nat) (replies : Nat → UpstreamReply) :
    ∃ r px', px.handle now req replies = some (r, px') ∧
      HandleLoop.Planned (px.arrive.callOf now req replies) px.budget.onRequest
        (px.failoverOrder pool now req) 0 (failingHead replies (px.failoverOrder pool now req))
        px.retriesAllowed ⟨r.attempts.map Attempt.backend, r.response, px'.budget⟩ := by
  obtain ⟨response, s, hloop, heq, _, _⟩ := handle_calls h hroute hpool now replies
  obtain ⟨hasked, hresponse, hbudget⟩ := HandleLoop.loop_walk (Pool.AgreeOff.refl _ _)
    ⟨fun _ => rfl, fun _ => rfl⟩ (Nat.le_refl _) hloop
  have hasked : s.attempts.map Attempt.backend = _ := hasked.trans (List.nil_append _)
  refine ⟨_, _, heq, ?_⟩
  show HandleLoop.Planned _ _ _ _ _ _ ⟨s.attempts.map Attempt.backend, response, s.budget⟩
  rw [hasked, hresponse, hbudget]
  exact HandleLoop.walk_planned (px.arrive.callOf now req replies)
    (b := px.budget.onRequest) _ (Nat.zero_le _) rfl

theorem failoverOrder_perm (px : Proxy) {pool : Pool} (h : pool.Reachable) (now : Nat)
    (req : Request) :
    (px.failoverOrder pool now req).Perm ((pool.poll now).candidates now []) := by
  have hreach : (pool.poll now).Reachable :=
    System.Reachable.step (M := poolSystem) (a := .poll now) h trivial
  have hle := length_candidates_le (pool.poll now) now []
  have hlen : (pool.poll now).backends.length = pool.backends.length := by simp [Pool.poll]
  rw [hlen] at hle
  exact Pool.failoverOrder_perm hreach (Nat.le_succ_of_le hle)

/-- A request goes down its order of failover.  The order has every candidate once and
depends on no reply.  With `k` failing backends at its head, the request asks the first
`k` of them and the next one, or as many as the retries allow.  The replies decide only
how far it goes. -/
theorem handle_follows_order {px : Proxy} (h : px.Reachable) {service : String}
    {pool : Pool} {req : Request} (hroute : px.router.route req = some service)
    (hpool : px.pools service = some pool) (now : Nat) (replies : Nat → UpstreamReply) :
    let order := px.failoverOrder pool now req
    let k := failingHead replies order
    ∃ r px', px.handle now req replies = some (r, px') ∧
      order.Perm ((pool.poll now).candidates now []) ∧
      r.attempts.map Attempt.backend = order.take (min k px.retriesAllowed + 1) ∧
      r.selected = order.head? ∧
      (∀ i, order[k]? = some i → k ≤ px.retriesAllowed →
        ∃ resp, (replies i).outcome = .ok resp ∧ r.response = .ok resp) ∧
      (order.length ≤ k ∨ px.retriesAllowed < k → r.response = .error
        (if order = [] then .noHealthyUpstream
          else .allAttemptsFailed (min k (px.retriesAllowed + 1)))) ∧
      px'.budget = px.budget.onRequest.spend
        (min k (min px.budget.maxRetriesPerRequest (px.retriesAllowed + 1))) := by
  intro order k
  have hp := poolsOk_of_reachable h
  obtain ⟨r, px', heq, hplan⟩ := handle_planned hp hroute hpool now replies
  have hselected : r.selected = (r.attempts.map Attempt.backend).head? := by
    obtain ⟨response, s₁, s, hh, heq'⟩ := handle_of_pool hp hroute hpool now replies
    obtain ⟨rfl, _⟩ := Prod.mk.inj (Option.some.inj (heq.symm.trans heq'))
    exact (hh.last.traced hh.looped).firstSelected
  have hasked : r.attempts.map Attempt.backend =
      order.take (min k px.retriesAllowed + 1) := hplan.asked
  refine ⟨r, px', heq, px.failoverOrder_perm (hp service pool hpool) now req, hasked, ?_,
    fun i hi hle => hplan.answered i hi (by rwa [Nat.zero_add]), fun hf => ?_, ?_⟩
  · rw [hselected, hasked, List.head?_eq_getElem?, List.head?_eq_getElem?,
      List.getElem?_take_of_lt (Nat.succ_pos _)]
  · have hfailed := hplan.failed (by rwa [Nat.zero_add])
    simpa only [Nat.zero_add, true_and] using hfailed
  · have hspent := hplan.budget
    rwa [Nat.zero_add] at hspent

/-- The first of two backends is down: the request goes on to the second one. -/
theorem handle_follows_order_two :
    ∃ r px', twoBackends.handle 5 (.new .get "/")
        (fun i => if i = 0 then ⟨.error .timeout, 30⟩ else ⟨.ok (.new 200), 3⟩) =
        some (r, px') ∧ r.attempts.map Attempt.backend = [0, 1] := by
  have hroute : twoBackends.router.route (.new .get "/") = some "api" := by decide
  have hpool : twoBackends.pools "api" = some .twoBackends := rfl
  obtain ⟨r, px', heq, _, hasked, _⟩ := handle_follows_order reachable_twoBackends hroute
    hpool 5 (fun i => if i = 0 then ⟨.error .timeout, 30⟩ else ⟨.ok (.new 200), 3⟩)
  exact ⟨r, px', heq, hasked.trans (by decide)⟩

end Proxy

end Echofront
