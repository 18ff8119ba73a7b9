import Echofront.Proxy.Run
import Mathlib.Algebra.Order.Ring.Int

/-!
# Retries

What a request spends on retries, and when it sends itself again.

* `handle_spends` ties the tokens, the two counters and the retries of one
  request together.  `Wastes` is the case in which the loop takes a token and
  then finds no backend to spend it on.
* `retry_amplification` bounds the retries of any window of requests.
* `retries_conserved_iff` says that the counters agree with the retries that were
  sent exactly in the runs without waste.
* `replay_iff` says when a request is sent to a second upstream.  The method of
  the request plays no part in it.
-/

namespace Echofront

open Lib

namespace Proxy

/-- The attempts of a result that are retries. -/
def retriesIn (r : HandleResult) : Nat := r.attempts.countP (·.isRetry)

/-- The result of a request. -/
def handleResult (px : Proxy) : ProxyOp → Option HandleResult
  | .handle now req replies => (px.handle now req replies).map Prod.fst
  | _ => none

/-- The retries that the requests of a run have sent. -/
def retriesSent (px : Proxy) (ops : List ProxyOp) : Nat :=
  ((proxySystem.events handleResult px ops).map retriesIn).sum

/-- No upstream answers. -/
def timeouts : Nat → UpstreamReply := fun _ => ⟨.error .timeout, 1000⟩

/-! ## What one request spends -/

/-- Every attempt but the first is a retry. -/
theorem countP_isRetry {as : List Attempt}
    (h : ∀ (k : Nat) (a : Attempt), as[k]? = some a → a.isRetry = decide (0 < k)) :
    as.countP (·.isRetry) = as.length - 1 := by
  cases as with
  | nil => rfl
  | cons a as =>
    have hfirst : a.isRetry = false := h 0 a rfl
    have hrest : as.countP (·.isRetry) = as.length := by
      rw [List.countP_eq_length]
      intro b hb
      obtain ⟨k, hk⟩ := List.mem_iff_getElem?.mp hb
      rw [h (k + 1) b (by simpa using hk)]
      exact decide_eq_true (Nat.succ_pos k)
    rw [List.countP_cons, hrest, hfirst]
    rfl

/-- A request that spends one token more than it sends retries: every candidate
fails, and both the limit and the bucket allow as many retries as there are
candidates. -/
def Wastes (px : Proxy) (now : Nat) (req : Request) (replies : Nat → UpstreamReply) : Prop :=
  ∃ service pool, px.router.route req = some service ∧ px.pools service = some pool ∧
    (pool.poll now).candidates now [] ≠ [] ∧
    (∀ i ∈ (pool.poll now).candidates now [], ∃ e, (replies i).outcome = .error e) ∧
    ((pool.poll now).candidates now []).length ≤ px.budget.maxRetriesPerRequest ∧
    px.budget.onRequest.grants ((pool.poll now).candidates now []).length = true

end Proxy

namespace HandleLoop

variable {c : Call} {s₀ s s' : HandleLoop} {response : Except ProxyError Response}

/-- The loop ends with as many tokens spent as turns were retried. -/
theorem LastTurn.budget (hl : LastTurn c s₀ s response s') (h : Looped c s₀ s) :
    s'.budget.cfg = s₀.budget.cfg ∧
    s'.budget.tokensMilli = (s₀.budget.spend s.tried.length).tokensMilli ∧
    s'.budget.granted = s₀.budget.granted + s.tried.length ∧
    s'.totalRetries = s₀.totalRetries + s.tried.length := by
  have hgranted := RetryBudget.granted_spend h.granted
  have hkeep : s'.budget = s.budget → s'.totalRetries = s.totalRetries →
      s'.budget.cfg = s₀.budget.cfg ∧
      s'.budget.tokensMilli = (s₀.budget.spend s.tried.length).tokensMilli ∧
      s'.budget.granted = s₀.budget.granted + s.tried.length ∧
      s'.totalRetries = s₀.totalRetries + s.tried.length := by
    intro hb ht
    rw [hb, ht, h.budget, RetryBudget.spend_cfg]
    exact ⟨rfl, rfl, hgranted, h.totalRetries⟩
  cases hl with
  | unselected _ => exact hkeep rfl rfl
  | succeeded _ _ ha hb => exact hkeep hb ha.totalRetries
  | exhausted _ _ ha hdenied =>
    rcases hdenied with ⟨_, hb⟩ | ⟨hno, hb⟩
    · exact hkeep hb ha.totalRetries
    · -- A denied retry leaves the tokens and the count of grants.
      rcases s.budget.tryRetry_cases with ⟨_, heq⟩ | ⟨_, heq⟩
      · rw [heq] at hno
        simp at hno
      · rw [hb, heq, ha.totalRetries, h.budget]
        exact ⟨RetryBudget.spend_cfg _ _, rfl, hgranted, h.totalRetries⟩

/-- The tried backends and a new candidate fit in the candidates. -/
theorem Looped.length_lt (h : Looped c s₀ s) {idx : Nat} (hsel : Selects c s₀ s idx) :
    s.tried.length + 1 ≤ (s₀.pool.candidates c.now []).length := by
  have hle := (List.subperm_of_subset (h.nodup_concat hsel) (h.candidates_concat hsel)).length_le
  rwa [List.length_append, List.length_singleton] at hle

/-- Every candidate fails, and the limit and the bucket allow as many retries as
there are candidates. -/
def AllFail (c : Call) (s₀ : HandleLoop) : Prop :=
  s₀.pool.candidates c.now [] ≠ [] ∧
    (∀ i ∈ s₀.pool.candidates c.now [], ∃ e, (c.replies i).outcome = .error e) ∧
    (s₀.pool.candidates c.now []).length ≤ c.maxRetries ∧
    s₀.budget.grants (s₀.pool.candidates c.now []).length = true

/-- If the loop ends without a candidate, all of them have failed. -/
theorem Looped.allFail_iff (h : Looped c s₀ s)
    (hall : ∀ i ∈ s₀.pool.candidates c.now [], i ∈ s.tried) :
    AllFail c s₀ ↔ s.tried ≠ [] := by
  have hlen : (s₀.pool.candidates c.now []).length = s.tried.length :=
    Nat.le_antisymm
      (List.subperm_of_subset (s₀.pool.nodup_candidates c.now []) hall).length_le
      (List.subperm_of_subset h.nodup h.candidates).length_le
  have hnil : s₀.pool.candidates c.now [] = [] ↔ s.tried = [] := by
    rw [← List.length_eq_zero_iff, hlen, List.length_eq_zero_iff]
  refine ⟨fun hf => fun he => hf.1 (hnil.mpr he), fun hne => ⟨fun he => hne (hnil.mp he),
    fun i hi => h.failed i (hall i hi), ?_, ?_⟩⟩
  · rw [hlen]
    exact h.limit
  · rw [hlen]
    exact h.granted

/-- If the last selected backend answers, or a retry is denied, they have not. -/
theorem LastTurn.not_allFail (hl : LastTurn c s₀ s response s') (h : Looped c s₀ s)
    (hne : s'.attempts.length ≠ s.tried.length) : ¬ AllFail c s₀ := by
  intro hf
  obtain ⟨_, herr, hlim, hgrants⟩ := hf
  cases hl with
  | unselected _ => exact hne h.attempts_length
  | succeeded hsel hreply _ _ =>
    obtain ⟨e, he⟩ := herr _ hsel.candidate
    rw [hreply] at he
    simp at he
  | exhausted hsel _ _ hdenied =>
    have hlt := h.length_lt hsel
    rcases hdenied with ⟨hmax, _⟩ | ⟨hno, _⟩
    · omega
    · have hg := RetryBudget.grants_of_le hgrants hlt
      rw [RetryBudget.grants, Bool.and_eq_true, ← h.budget, hno] at hg
      exact absurd hg.2 (by simp)

/-- The tokens that the loop spends: one for each retry it sends, and one more if
all candidates fail. -/
theorem LastTurn.spent (hl : LastTurn c s₀ s response s') (h : Looped c s₀ s) :
    (AllFail c s₀ → s.tried.length = s'.attempts.length - 1 + 1) ∧
      (¬ AllFail c s₀ → s.tried.length = s'.attempts.length - 1) := by
  rcases hl.attempts_length h with ⟨hall, hlen⟩ | hlen
  · rw [h.allFail_iff hall, hlen, ← List.length_pos_iff]
    omega
  · have hnot := hl.not_allFail h (by omega)
    exact ⟨fun hf => absurd hf hnot, fun _ => by omega⟩

/-- A second attempt takes a second candidate, and a retry that the limit and the
bucket allow. -/
theorem LastTurn.of_two_le (hl : LastTurn c s₀ s response s') (h : Looped c s₀ s)
    (htwo : 2 ≤ s'.attempts.length) :
    2 ≤ (s₀.pool.candidates c.now []).length ∧ 1 ≤ c.maxRetries ∧
      s₀.budget.cfg.retryCostMilli ≤ s₀.budget.tokensMilli := by
  have htr := hl.traced h
  have hle := (List.subperm_of_subset htr.nodup htr.candidates).length_le
  rw [List.length_map] at hle
  have hone : 1 ≤ s.tried.length := by
    rcases hl.attempts_length h with ⟨_, hlen⟩ | hlen <;> omega
  refine ⟨Nat.le_trans htwo hle, Nat.le_trans hone h.limit, ?_⟩
  have hfirst : s₀.budget.tryRetry.1 = true := by
    simpa [RetryBudget.grants, RetryBudget.spend] using RetryBudget.grants_of_le h.granted hone
  exact RetryBudget.tryRetry_iff.mp hfirst

/-- If nobody answers, that is enough for a second attempt. -/
theorem LastTurn.two_le (hl : LastTurn c s₀ s response s') (h : Looped c s₀ s)
    (hfail : ∀ i, ∃ e, (c.replies i).outcome = .error e)
    (hcand : 2 ≤ (s₀.pool.candidates c.now []).length) (hlim : 1 ≤ c.maxRetries)
    (hpay : s₀.budget.cfg.retryCostMilli ≤ s₀.budget.tokensMilli) :
    2 ≤ s'.attempts.length := by
  cases hl with
  | unselected hall =>
    have hle := (List.subperm_of_subset (s₀.pool.nodup_candidates c.now []) hall).length_le
    rw [h.attempts_length]
    exact Nat.le_trans hcand hle
  | @succeeded idx _ _ _ hreply _ _ =>
    obtain ⟨e, he⟩ := hfail idx
    rw [hreply] at he
    simp at he
  | exhausted _ _ ha hdenied =>
    rw [ha.attempts_length h]
    by_contra hlt
    -- The first backend has failed, and its retry has been denied.
    have hnil : s.tried = [] := List.length_eq_zero_iff.mp (by omega)
    rcases hdenied with ⟨hmax, _⟩ | ⟨hno, _⟩
    · omega
    · rw [h.fresh hnil, RetryBudget.tryRetry_iff.mpr hpay] at hno
      simp at hno

end HandleLoop

namespace Proxy

/-- What one request spends.  `k` is the number of tokens it takes. -/
structure Spends (px : Proxy) (now : Nat) (req : Request) (replies : Nat → UpstreamReply)
    (r : HandleResult) (px' : Proxy) (k : Nat) : Prop where
  grants : px.budget.onRequest.grants k = true
  cfg : px'.budget.cfg = px.budget.cfg
  tokens : px'.budget.tokensMilli = (px.budget.onRequest.spend k).tokensMilli
  granted : px'.budget.granted = px.budget.granted + k
  totalRetries : px'.totalRetries = px.totalRetries + k
  totalFailovers : px'.totalFailovers = px.totalFailovers + retriesIn r
  limit : retriesIn r ≤ px.budget.maxRetriesPerRequest
  wasted : Wastes px now req replies → k = retriesIn r + 1
  kept : ¬ Wastes px now req replies → k = retriesIn r

/-- A request without a pool spends nothing. -/
theorem spends_unrouted {px : Proxy} {now : Nat} {req : Request}
    {replies : Nat → UpstreamReply} (service : Option String)
    (hnot : ¬ Wastes px now req replies) :
    Spends px now req replies (unrouted service) px.arrive 0 :=
  ⟨rfl, rfl, rfl, rfl, rfl, rfl, Nat.zero_le _, fun hw => absurd hw hnot, fun _ => rfl⟩

theorem Handled.wastes_iff {px : Proxy} {now : Nat} {req : Request}
    {replies : Nat → UpstreamReply} {service : String} {pool : Pool}
    {response : Except ProxyError Response} {s₁ s : HandleLoop}
    (h : Handled px now req replies service pool response s₁ s) :
    Wastes px now req replies ↔
      HandleLoop.AllFail (px.arrive.callOf now req replies) (px.arrive.start pool now) := by
  constructor
  · intro hw
    obtain ⟨service', pool', hroute, hpool, hrest⟩ := hw
    obtain rfl := Option.some.inj (h.routed.symm.trans hroute)
    obtain rfl := Option.some.inj (h.found.symm.trans hpool)
    exact hrest
  · intro hf
    exact ⟨service, pool, h.routed, h.found, hf⟩

/-- Every request returns, and spends what `Spends` says. -/
theorem handle_spends {px : Proxy} (h : PoolsOk px) (now : Nat) (req : Request)
    (replies : Nat → UpstreamReply) :
    ∃ r px' k, px.handle now req replies = some (r, px') ∧
      Spends px now req replies r px' k := by
  rcases handle_cases h now req replies with
    ⟨hroute, heq⟩ | ⟨service, hroute, hnone, heq⟩ | ⟨service, pool, response, s₁, s, hh, heq⟩
  · refine ⟨_, _, 0, heq, spends_unrouted none ?_⟩
    intro hw
    obtain ⟨service, pool, hr, _⟩ := hw
    rw [hroute] at hr
    simp at hr
  · refine ⟨_, _, 0, heq, spends_unrouted (some service) ?_⟩
    intro hw
    obtain ⟨service', pool, hr, hp, _⟩ := hw
    obtain rfl := Option.some.inj (hroute.symm.trans hr)
    rw [hnone] at hp
    simp at hp
  · have htr := hh.last.traced hh.looped
    obtain ⟨hcfg, htok, hgr, hret⟩ := hh.last.budget hh.looped
    obtain ⟨hwaste, hkept⟩ := hh.last.spent hh.looped
    have hsent : s.attempts.countP (·.isRetry) = s.attempts.length - 1 :=
      countP_isRetry htr.isRetry
    refine ⟨_, _, s₁.tried.length, heq, ⟨hh.looped.granted, hcfg, htok, hgr, hret, ?_, ?_, ?_, ?_⟩⟩
    · show s.totalFailovers = px.totalFailovers + s.attempts.countP (·.isRetry)
      rw [hsent]
      exact htr.totalFailovers
    · show s.attempts.countP (·.isRetry) ≤ px.budget.maxRetriesPerRequest
      have hlim : s.attempts.length ≤ px.budget.maxRetriesPerRequest + 1 := htr.limit
      omega
    · intro hw
      show s₁.tried.length = s.attempts.countP (·.isRetry) + 1
      rw [hsent]
      exact hwaste (hh.wastes_iff.mp hw)
    · intro hw
      show s₁.tried.length = s.attempts.countP (·.isRetry)
      rw [hsent]
      exact hkept (fun hf => hw (hh.wastes_iff.mpr hf))

theorem apply_handle {px px' : Proxy} {now : Nat} {req : Request}
    {replies : Nat → UpstreamReply} {r : HandleResult}
    (h : px.handle now req replies = some (r, px')) :
    px.apply (.handle now req replies) = px' ∧
      handleResult px (.handle now req replies) = some r := by
  simp [apply, handleResult, h]

/-! ## The bucket over a run -/

/-- A request keeps the bucket in range, and pays for the tokens it takes. -/
theorem Spends.tokens_le {px px' : Proxy} {now : Nat} {req : Request}
    {replies : Nat → UpstreamReply} {r : HandleResult} {k : Nat}
    (h : Spends px now req replies r px' k) (hs : px.budget.cfg.Sane)
    (hf : px.budget.Filled) :
    px'.budget.Filled ∧ px'.budget.tokensMilli ≤ px.budget.tokensMilli +
      px.budget.cfg.depositMilli - k * px.budget.cfg.retryCostMilli := by
  have hs₁ : px.budget.onRequest.cfg.Sane := hs
  obtain ⟨hf₁, hle⟩ := RetryBudget.onRequest_spec hs hf
  obtain ⟨hf₂, heq⟩ := RetryBudget.spend_spec hs₁ hf₁ h.grants
  have hcfg : (px.budget.onRequest.spend k).cfg = px.budget.cfg :=
    RetryBudget.spend_cfg px.budget.onRequest k
  refine ⟨⟨?_, ?_⟩, ?_⟩
  · rw [h.tokens]
    exact hf₂.nonneg
  · rw [h.tokens, h.cfg, ← hcfg]
    exact hf₂.le_max
  · have hcost : px.budget.onRequest.cfg.retryCostMilli = px.budget.cfg.retryCostMilli := rfl
    rw [h.tokens, heq, hcost]
    omega

/-- Only a request touches the budget and the counters. -/
theorem budget_apply (px : Proxy) {op : ProxyOp}
    (h : ∀ now req replies, op ≠ .handle now req replies) :
    (px.apply op).budget = px.budget ∧ (px.apply op).totalRetries = px.totalRetries ∧
      (px.apply op).totalFailovers = px.totalFailovers ∧ handleResult px op = none := by
  cases op with
  | handle now req replies => exact absurd rfl (h now req replies)
  | _ => exact ⟨rfl, rfl, rfl, rfl⟩

theorem filled_of_reachable {px : Proxy} (h : px.Reachable) (hs : px.budget.cfg.Sane) :
    px.budget.Filled := by
  refine (System.Reachable.invariant (M := proxySystem)
    (I := fun px => PoolsOk px ∧ (px.budget.cfg.Sane → px.budget.Filled)) ?_ ?_ h).2 hs
  · intro px₀ h₀
    refine ⟨poolsOk_of_init h₀, ?_⟩
    obtain ⟨router, retry, rfl⟩ := h₀
    exact fun hs => RetryBudget.filled_new hs
  · intro px op hpx hok
    obtain ⟨hpools, hfilled⟩ := hpx
    refine ⟨poolsOk_apply hpools hok, ?_⟩
    show (px.apply op).budget.cfg.Sane → (px.apply op).budget.Filled
    by_cases hreq : ∀ now req replies, op ≠ .handle now req replies
    · rw [(budget_apply px hreq).1]
      exact hfilled
    · push Not at hreq
      obtain ⟨now, req, replies, rfl⟩ := hreq
      obtain ⟨r, px', k, heq, hspend⟩ := handle_spends hpools now req replies
      rw [(apply_handle heq).1, hspend.cfg]
      exact fun hs => (hspend.tokens_le hs (hfilled hs)).1

/-- The bound from the tokens at the start of a window of requests. -/
theorem retriesSent_le {px : Proxy} (h : PoolsOk px) (hs : px.budget.cfg.Sane)
    (hf : px.budget.Filled) {ops : List ProxyOp}
    (hreq : ∀ op ∈ ops, ∃ now req replies, op = .handle now req replies) :
    (proxySystem.events handleResult px ops).length = ops.length ∧
    (retriesSent px ops : Int) * px.budget.cfg.retryCostMilli ≤
      px.budget.tokensMilli + ops.length * px.budget.cfg.depositMilli ∧
    ∀ r ∈ proxySystem.events handleResult px ops,
      retriesIn r ≤ px.budget.maxRetriesPerRequest := by
  induction ops generalizing px with
  | nil =>
    exact ⟨rfl, by simpa [retriesSent, System.events] using hf.nonneg,
      by simp [System.events]⟩
  | cons op ops ih =>
    obtain ⟨now, req, replies, rfl⟩ := hreq op (by simp)
    obtain ⟨r, px', k, heq, hspend⟩ := handle_spends h now req replies
    obtain ⟨happly, hresult⟩ := apply_handle heq
    have hok : px.Accepts (.handle now req replies) := trivial
    have hpools : PoolsOk px' := happly ▸ poolsOk_apply h hok
    have hstep : proxySystem.step px (.handle now req replies) = px' := happly
    obtain ⟨hf', htok⟩ := hspend.tokens_le hs hf
    have hs' : px'.budget.cfg.Sane := by rwa [hspend.cfg]
    obtain ⟨hlen, hsum, hall⟩ := ih hpools hs' hf' (fun o ho => hreq o (by simp [ho]))
    have hevents : proxySystem.events handleResult px (.handle now req replies :: ops) =
        r :: proxySystem.events handleResult px' ops := by
      rw [System.events, hresult, hstep]
      rfl
    have hk : retriesIn r ≤ k := by
      by_cases hw : Wastes px now req replies
      · rw [hspend.wasted hw]
        exact Nat.le_succ _
      · exact Nat.le_of_eq (hspend.kept hw).symm
    have hsent : retriesSent px (.handle now req replies :: ops) =
        retriesIn r + retriesSent px' ops := by
      rw [retriesSent, hevents, List.map_cons, List.sum_cons]
      rfl
    rw [hspend.cfg] at hsum
    have hmax : px'.budget.maxRetriesPerRequest = px.budget.maxRetriesPerRequest := by
      rw [RetryBudget.maxRetriesPerRequest, hspend.cfg]
      rfl
    refine ⟨by rw [hevents, List.length_cons, List.length_cons, hlen], ?_, ?_⟩
    · have hkcost : (retriesIn r : Int) * px.budget.cfg.retryCostMilli ≤
          k * px.budget.cfg.retryCostMilli :=
        mul_le_mul_of_nonneg_right (by exact_mod_cast hk) (le_of_lt hs.cost_pos)
      rw [hsent, List.length_cons]
      push_cast
      rw [add_mul, add_mul, one_mul]
      omega
    · rw [hevents]
      intro r' hr'
      rcases List.mem_cons.mp hr' with rfl | hr'
      · exact hspend.limit
      · rw [← hmax]
        exact hall r' hr'

/-- Retries are bounded over every window.  Over any `n` requests in a row, from
any reachable proxy, the retries cost at most a full bucket and `n` deposits, and
no request sends more of them than its limit. -/
theorem retry_amplification {px : Proxy} (h : px.Reachable) (hs : px.budget.cfg.Sane)
    {ops : List ProxyOp}
    (hreq : ∀ op ∈ ops, ∃ now req replies, op = .handle now req replies) :
    (proxySystem.events handleResult px ops).length = ops.length ∧
    (retriesSent px ops : Int) * px.budget.cfg.retryCostMilli ≤
      px.budget.cfg.maxMilli + ops.length * px.budget.cfg.depositMilli ∧
    ∀ r ∈ proxySystem.events handleResult px ops,
      retriesIn r ≤ px.budget.maxRetriesPerRequest := by
  have hf := filled_of_reachable h hs
  obtain ⟨hlen, hsum, hall⟩ := retriesSent_le (poolsOk_of_reachable h) hs hf hreq
  have hmax := hf.le_max
  exact ⟨hlen, by omega, hall⟩

/-- Two requests to a pool whose backends time out. -/
theorem retry_amplification_two :
    (retriesSent twoBackends [.handle 5 (.new .get "/") timeouts,
      .handle 6 (.new .get "/") timeouts] : Int) * 1000 ≤ 10000 + 2 * 200 :=
  (retry_amplification reachable_twoBackends ⟨by decide, by decide, by decide, by decide⟩
    (by simp)).2.1

/-! ## Requests that are sent again -/

/-- A request can be sent to a second upstream: there are two candidates, the
limit allows a retry, and the bucket holds its cost. -/
def CanResend (px : Proxy) (now : Nat) (req : Request) : Prop :=
  ∃ service pool, px.router.route req = some service ∧ px.pools service = some pool ∧
    2 ≤ ((pool.poll now).candidates now []).length ∧
    1 ≤ px.budget.maxRetriesPerRequest ∧
    px.budget.cfg.retryCostMilli ≤ px.budget.onRequest.tokensMilli

/-- A request goes to at most one upstream, whatever the replies, exactly if it
cannot be sent again. -/
theorem sent_once_iff {px : Proxy} (h : PoolsOk px) (now : Nat) (req : Request) :
    (∀ replies, ∃ r px', px.handle now req replies = some (r, px') ∧ r.attempts.length ≤ 1) ↔
      ¬ CanResend px now req := by
  constructor
  · intro hall hcan
    obtain ⟨service, pool, hroute, hpool, hcand, hlim, hpay⟩ := hcan
    obtain ⟨r, px', heq, hle⟩ := hall timeouts
    obtain ⟨response, s₁, s, hh, heq'⟩ := handle_of_pool h hroute hpool now timeouts
    have htwo := hh.last.two_le hh.looped (fun _ => ⟨.timeout, rfl⟩) hcand hlim hpay
    obtain ⟨rfl, _⟩ := Prod.mk.inj (Option.some.inj (heq.symm.trans heq'))
    exact absurd hle (Nat.not_le.mpr htwo)
  · intro hno replies
    rcases handle_cases h now req replies with
      ⟨_, heq⟩ | ⟨_, _, _, heq⟩ | ⟨service, pool, response, s₁, s, hh, heq⟩
    · exact ⟨_, _, heq, Nat.zero_le 1⟩
    · exact ⟨_, _, heq, Nat.zero_le 1⟩
    · refine ⟨_, _, heq, Nat.le_of_not_lt fun htwo => hno ?_⟩
      exact ⟨service, pool, hh.routed, hh.found, hh.last.of_two_le hh.looped htwo⟩

/-- A request whose method is not idempotent goes to at most one upstream, whatever
the replies, exactly if no request at all could be sent again.  The method plays no
part. -/
theorem replay_iff {px : Proxy} (h : px.Reachable) (now : Nat) (req : Request) :
    (∀ replies, ∃ r px', px.handle now req replies = some (r, px') ∧
      (req.method.isIdempotent = false → r.attempts.length ≤ 1)) ↔
    (req.method.isIdempotent = true ∨ ¬ CanResend px now req) := by
  have hok := poolsOk_of_reachable h
  rw [← sent_once_iff hok]
  cases req.method.isIdempotent with
  | true =>
    refine ⟨fun _ => Or.inl rfl, fun _ replies => ?_⟩
    obtain ⟨r, px', k, heq, _⟩ := handle_spends hok now req replies
    exact ⟨r, px', heq, fun hno => by simp at hno⟩
  | false => simp

/-- Two idle backends and a full bucket: a request can be sent again. -/
theorem replay_iff_two : ¬ ∀ replies, ∃ r px',
    twoBackends.handle 5 (.new .post "/") replies = some (r, px') ∧
      (Method.post.isIdempotent = false → r.attempts.length ≤ 1) := by
  intro hall
  rcases (replay_iff reachable_twoBackends 5 (.new .post "/")).mp hall with hid | hno
  · exact absurd hid (by decide)
  · exact hno ⟨"api", .twoBackends, by decide, rfl, by decide, by decide, by decide⟩

/-- A POST that times out at the first upstream is sent to the second one. -/
theorem post_replayed : ¬ ∀ px : Proxy, px.Reachable → ∀ now req replies r px',
    req.method.isIdempotent = false → px.handle now req replies = some (r, px') →
      r.attempts.length ≤ 1 := by
  intro hall
  have hlen : (twoBackends.handle 5 (.new .post "/") timeouts).map
      (fun r => r.1.attempts.length) = some 2 := by decide
  obtain ⟨⟨r, px'⟩, heq, htwo⟩ := Option.map_eq_some_iff.mp hlen
  have hle := hall twoBackends reachable_twoBackends 5 (.new .post "/") timeouts r px'
    (by decide) heq
  have htwo : r.attempts.length = 2 := htwo
  omega

/-! ## Conservation -/

theorem retriesSent_concat (px : Proxy) (ops : List ProxyOp) (op : ProxyOp) :
    retriesSent px (ops ++ [op]) = retriesSent px ops +
      ((handleResult (proxySystem.exec px ops) op).map retriesIn).getD 0 := by
  simp only [retriesSent, System.events_append, List.map_append, List.sum_append]
  cases hresult : handleResult (proxySystem.exec px ops) op <;> simp [System.events, hresult]

/-- If the call is a request, it wastes no token. -/
def NoWaste (px : Proxy) (op : ProxyOp) : Prop :=
  ∀ now req replies, op = .handle now req replies → ¬ Wastes px now req replies

/-- What the counters say of a run. -/
structure Counted (px₀ : Proxy) (ops : List ProxyOp) (px : Proxy) : Prop where
  pools : PoolsOk px
  totalRetries : px.totalRetries = px.budget.granted
  totalFailovers : px.totalFailovers = retriesSent px₀ ops
  sent_le : retriesSent px₀ ops ≤ px.budget.granted
  kept : px.budget.granted = retriesSent px₀ ops ↔ proxySystem.Always NoWaste px₀ ops

theorem counted_exec {px₀ : Proxy} (h₀ : proxySystem.init px₀) {ops : List ProxyOp}
    (hv : proxySystem.Valid px₀ ops) : Counted px₀ ops (proxySystem.exec px₀ ops) := by
  refine System.Always.history (M := proxySystem) (I := fun ops px => Counted px₀ ops px)
    ?_ ?_ hv
  · have hpools := poolsOk_of_init h₀
    obtain ⟨router, retry, rfl⟩ := h₀
    exact ⟨hpools, rfl, rfl, Nat.le_refl 0, ⟨fun _ => trivial, fun _ => rfl⟩⟩
  · intro ops op _ hok h
    have hconcat := retriesSent_concat px₀ ops op
    have halways := System.always_concat_iff proxySystem NoWaste px₀ ops op
    obtain ⟨hpools, hret, hfail, hle, hkept⟩ := h
    generalize proxySystem.exec px₀ ops = px at *
    show Counted px₀ (ops ++ [op]) (px.apply op)
    by_cases hreq : ∀ now req replies, op ≠ .handle now req replies
    · obtain ⟨hb, hr, hf, hnone⟩ := budget_apply px hreq
      rw [hnone] at hconcat
      have hconcat : retriesSent px₀ (ops ++ [op]) = retriesSent px₀ ops := hconcat
      have hno : NoWaste px op := fun now req replies he => absurd he (hreq now req replies)
      refine ⟨poolsOk_apply hpools hok, ?_, ?_, ?_, ?_⟩
      · rw [hr, hb, hret]
      · rw [hf, hconcat, hfail]
      · rw [hconcat, hb]
        exact hle
      · rw [hconcat, hb, hkept, halways]
        exact ⟨fun h => ⟨h, hno⟩, fun h => h.1⟩
    · push Not at hreq
      obtain ⟨now, req, replies, rfl⟩ := hreq
      obtain ⟨r, px', k, heq, hspend⟩ := handle_spends hpools now req replies
      obtain ⟨happly, hresult⟩ := apply_handle heq
      have hok : px.Accepts (.handle now req replies) := hok
      have hpools' := poolsOk_apply hpools hok
      have hgranted := hspend.granted
      rw [hresult] at hconcat
      have hconcat : retriesSent px₀ (ops ++ [.handle now req replies]) =
          retriesSent px₀ ops + retriesIn r := hconcat
      rw [happly] at hpools' ⊢
      have hwaste : NoWaste px (.handle now req replies) ↔ ¬ Wastes px now req replies :=
        ⟨fun h => h now req replies rfl, fun h now' req' replies' he => by
          cases he
          exact h⟩
      refine ⟨hpools', ?_, ?_, ?_, ?_⟩
      · rw [hspend.totalRetries, hret, hgranted]
      · rw [hspend.totalFailovers, hfail, hconcat]
      · by_cases hw : Wastes px now req replies
        · have hk := hspend.wasted hw
          omega
        · have hk := hspend.kept hw
          omega
      · rw [halways, ← hkept, hwaste]
        by_cases hw : Wastes px now req replies
        · have hk := hspend.wasted hw
          exact ⟨fun h => by omega, fun h => absurd hw h.2⟩
        · have hk := hspend.kept hw
          exact ⟨fun h => ⟨by omega, hw⟩, fun h => by omega⟩

/-- The counters agree with the retries that a run has sent exactly if no request
of the run wasted a token. -/
theorem retries_conserved_iff {px₀ : Proxy} (h₀ : proxySystem.init px₀)
    {ops : List ProxyOp} (hv : proxySystem.Valid px₀ ops) :
    let px := proxySystem.exec px₀ ops
    (px.budget.granted = retriesSent px₀ ops ∧ px.totalRetries = retriesSent px₀ ops ∧
      px.totalFailovers = retriesSent px₀ ops) ↔ proxySystem.Always NoWaste px₀ ops := by
  intro px
  have h := counted_exec h₀ hv
  rw [← h.kept]
  exact ⟨fun heq => heq.1, fun heq => ⟨heq, h.totalRetries.trans heq, h.totalFailovers⟩⟩

/-- A request that succeeds at once wastes no token. -/
theorem retries_conserved_iff_two :
    let ops : List ProxyOp :=
      [.addPool .twoBackends, .handle 5 (.new .get "/") (fun _ => ⟨.ok (.new 200), 3⟩)]
    (proxySystem.exec routed ops).budget.granted = retriesSent routed ops := by
  intro ops
  have hinit : proxySystem.init routed := ⟨_, _, rfl⟩
  have hv : proxySystem.Valid routed ops := ⟨Pool.reachable_twoBackends, trivial, trivial⟩
  have hno : proxySystem.Always NoWaste routed ops := by
    refine ⟨?_, ?_, trivial⟩
    · intro now req replies hop
      simp at hop
    · intro now req replies hop hw
      obtain ⟨rfl, rfl, rfl⟩ := ProxyOp.handle.inj hop
      obtain ⟨service, pool, hroute, hpool, _, herr, _⟩ := hw
      have hapi : twoBackends.router.route (.new .get "/") = some "api" := by decide
      obtain rfl := Option.some.inj (hapi.symm.trans hroute)
      obtain rfl : Pool.twoBackends = pool := Option.some.inj hpool
      obtain ⟨e, he⟩ := herr 0 (by decide)
      simp at he
  exact ((retries_conserved_iff hinit hv).mpr hno).1

/-- A pool of one backend. -/
def oneBackend : Pool :=
  (Pool.new "api" .roundRobin .default).addBackend (.new "a" 1 .default .default)

/-- With one backend, a request that fails takes a token and sends no retry. -/
theorem token_wasted :
    let ops : List ProxyOp := [.addPool oneBackend, .handle 5 (.new .get "/") timeouts]
    (proxySystem.init routed ∧ proxySystem.Valid routed ops) ∧
      (proxySystem.exec routed ops).budget.granted = 1 ∧
      (proxySystem.exec routed ops).totalRetries = 1 ∧
      (proxySystem.exec routed ops).totalFailovers = 0 ∧ retriesSent routed ops = 0 := by
  have hone : oneBackend.Reachable :=
    ⟨.new "api" .roundRobin .default, [.addBackend (.new "a" 1 .default .default)],
      ⟨_, _, _, rfl⟩, ⟨Backend.fresh_new _ _ _ _, trivial⟩, rfl⟩
  exact ⟨⟨⟨_, _, rfl⟩, hone, trivial, trivial⟩, by decide, by decide, by decide, by decide⟩

end Proxy

end Echofront
