import Echofront.Proxy.Run

/-!
# Failover is complete

A request that has a backend which answers finds it, if the limit and the budget
let it try all the backends that do not.

The loop ends in one of three ways (`HandleLoop.LastTurn`).  It does not run out
of candidates, since a tried backend is a failed one and some candidate is not.
It is not denied a retry, since the failed backends are distinct candidates with
an error reply: `length_tried_le` counts them, and `RetryBudget.grants_of_tokens`
says what the bucket pays for.
-/

namespace Echofront

open Lib

namespace Proxy

/-- The candidates of a request whose reply is an error. -/
def failing (replies : Nat → UpstreamReply) (candidates : List Nat) : List Nat :=
  candidates.filter (fun i => !(replies i).isOk)

/-- Distinct candidates with an error reply are no more than the failing ones. -/
theorem length_tried_le {replies : Nat → UpstreamReply} {candidates tried : List Nat}
    (hnodup : tried.Nodup) (hcand : ∀ i ∈ tried, i ∈ candidates)
    (hfail : ∀ i ∈ tried, ∃ e, (replies i).outcome = .error e) :
    tried.length ≤ (failing replies candidates).length := by
  have hsub : tried ⊆ failing replies candidates := by
    intro i hi
    obtain ⟨e, he⟩ := hfail i hi
    exact List.mem_filter.mpr ⟨hcand i hi, by rw [UpstreamReply.isOk_eq_false he]; rfl⟩
  exact (List.subperm_of_subset hnodup hsub).length_le

/-- Failover is complete.  Of the backends that a request may be sent to after the
poll, let those with an error reply be no more than the retries of a request, and
let the bucket hold their cost after the deposit.  If some candidate answers, the
response is `Ok`, after at most that many failed attempts.  It is the reply of the last
backend, and an attempt is ok exactly if its backend replies so. -/
theorem handle_failover_complete {px : Proxy} (h : px.Reachable) (now : Nat) (req : Request)
    (replies : Nat → UpstreamReply) {service : String} {pool : Pool}
    (hroute : px.router.route req = some service) (hpool : px.pools service = some pool)
    (hcost : 0 ≤ px.budget.cfg.retryCostMilli)
    (hok : ∃ i ∈ (pool.poll now).candidates now [], (replies i).isOk = true)
    (hmax : (failing replies ((pool.poll now).candidates now [])).length ≤
      px.budget.maxRetriesPerRequest)
    (hbudget : (failing replies ((pool.poll now).candidates now [])).length *
      px.budget.cfg.retryCostMilli ≤ px.budget.onRequest.tokensMilli) :
    ∃ r px', px.handle now req replies = some (r, px') ∧
      (∃ resp a, r.response = .ok resp ∧ r.attempts.getLast? = some a ∧
        (replies a.backend).outcome = .ok resp) ∧
      (∀ a ∈ r.attempts, a.ok = (replies a.backend).isOk) ∧
      (r.attempts.filter (fun a => !a.ok)).length ≤
        (failing replies ((pool.poll now).candidates now [])).length := by
  obtain ⟨response, s₁, s, hh, heq⟩ :=
    handle_of_pool (poolsOk_of_reachable h) hroute hpool now replies
  have hl := hh.looped
  have htried : s₁.tried.length ≤
      (failing replies ((pool.poll now).candidates now [])).length :=
    length_tried_le hl.nodup hl.candidates hl.failed
  have hgrants : px.budget.onRequest.grants
      (failing replies ((pool.poll now).candidates now [])).length = true :=
    (RetryBudget.grants_of_tokens (b := px.budget.onRequest) hcost
      px.budget.tokensMilli_onRequest_le hbudget).1
  have hok_eq := hh.last.ok_eq hl
  have hanswered : ∀ resp, response = .ok resp →
      ∃ a, s.attempts.getLast? = some a ∧ (replies a.backend).outcome = .ok resp :=
    fun _ hresp => hh.answered hresp
  refine ⟨_, _, heq, ?_⟩
  cases hh.last with
  | unselected hall =>
    obtain ⟨i, hi, hreply⟩ := hok
    obtain ⟨e, he⟩ := hl.failed i (hall i hi)
    have hno : (replies i).isOk = false := UpstreamReply.isOk_eq_false he
    rw [hreply] at hno
    exact absurd hno (by simp)
  | @succeeded idx resp s _ _ ha _ =>
    obtain ⟨last, hlast, hreply⟩ := hanswered resp rfl
    obtain ⟨a, hatt, _, haok, _⟩ := ha.attempts
    refine ⟨⟨resp, last, rfl, hlast, hreply⟩, hok_eq, ?_⟩
    have hfilter : (s.attempts.filter (fun a => !a.ok)).length ≤ s₁.tried.length := by
      rw [hatt, List.filter_append, ← hl.attempts_length]
      have hlast : [a].filter (fun a => !a.ok) = [] := by simp [haok]
      rw [hlast, List.append_nil]
      exact List.length_filter_le _ _
    exact hfilter.trans htried
  | @exhausted idx e s hsel hreply _ hdenied =>
    -- the backend of the last attempt is one more failing candidate
    have hmore : (s₁.tried ++ [idx]).length ≤
        (failing replies ((pool.poll now).candidates now [])).length :=
      length_tried_le (hl.nodup_concat hsel) (hl.candidates_concat hsel)
        (List.forall_mem_append.mpr
          ⟨hl.failed, List.forall_mem_singleton.mpr ⟨e, hreply⟩⟩)
    rw [List.length_append, List.length_singleton] at hmore
    rcases hdenied with ⟨hlim, _⟩ | ⟨hdeny, _⟩
    · exact absurd (hmore.trans hmax) (Nat.not_le_of_lt hlim)
    · have hgrant := RetryBudget.grants_of_le hgrants hmore
      rw [RetryBudget.grants, Bool.and_eq_true] at hgrant
      have hbud : s₁.budget = px.budget.onRequest.spend s₁.tried.length := hl.budget
      rw [hbud, hgrant.2] at hdeny
      exact absurd hdeny (by simp)

/-- The first of two backends fails and the second one answers. -/
theorem handle_failover_complete_two :
    ∃ r px', twoBackends.handle 5 (.new .get "/")
        (fun i => if i = 0 then ⟨.error .timeout, 30⟩ else ⟨.ok (.new 200), 3⟩) =
        some (r, px') ∧
      (∃ resp, r.response = .ok resp) ∧ (r.attempts.filter (fun a => !a.ok)).length ≤ 1 := by
  have hroute : twoBackends.router.route (.new .get "/") = some "api" := by decide
  have hpool : twoBackends.pools "api" = some .twoBackends := rfl
  obtain ⟨r, px', heq, ⟨resp, _, hresp, _⟩, _, hfailed⟩ :=
    handle_failover_complete reachable_twoBackends 5 (.new .get "/")
      (fun i => if i = 0 then ⟨.error .timeout, 30⟩ else ⟨.ok (.new 200), 3⟩) hroute hpool
      (by decide) ⟨1, by decide, by decide⟩ (by decide) (by decide)
  exact ⟨r, px', heq, ⟨resp, hresp⟩, hfailed⟩

end Proxy

end Echofront
