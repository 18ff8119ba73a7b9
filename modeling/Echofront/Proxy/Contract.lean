import Echofront.Proxy.Order

/-!
# The contract of a request

`Conduct` is what one request does: which backends it attempts, what the attempts and
the response say, and what it leaves in the pools.  `Contract` adds that every counter of
calls in flight is as before.

An attempt begins a call with a plain `in_flight += 1` and ends it with a saturating
decrement.  From `u32::MAX` the first wraps to zero and the second leaves it there.  So
`handle_contract_iff` has `RoomToAsk` as the exact condition: the backends that the
request is to ask have room for one more call.
-/

namespace Echofront

open Lib

namespace Proxy

open HandleLoop (failingHead)

/-- The router finds no service for the request, or the service has no pool. -/
def Unserved (px : Proxy) (req : Request) : Prop :=
  px.router.route req = none ∨
    ∃ service, px.router.route req = some service ∧ px.pools service = none

/-- The attempts of a request on `pool`, and the response they lead to. -/
structure Attempted (px : Proxy) (pool : Pool) (now : Nat) (replies : Nat → UpstreamReply)
    (r : HandleResult) : Prop where
  nodup : (r.attempts.map Attempt.backend).Nodup
  available : ∀ i ∈ r.attempts.map Attempt.backend,
    i < pool.backends.length ∧ ((pool.poll now).backend i).isAvailable now = true
  limit : r.attempts.length ≤ px.budget.maxRetriesPerRequest + 1
  notOk : ∀ (k : Nat) (a : Attempt), r.attempts[k]? = some a →
    k + 1 < r.attempts.length → a.ok = false
  isRetry : ∀ (k : Nat) (a : Attempt), r.attempts[k]? = some a → a.isRetry = decide (0 < k)
  ok_eq : ∀ a ∈ r.attempts, a.ok = (replies a.backend).isOk
  ok_iff : (∃ resp, r.response = .ok resp) ↔
    ∃ a, r.attempts.getLast? = some a ∧ a.ok = true
  answered : ∀ resp, r.response = .ok resp →
    ∃ a, r.attempts.getLast? = some a ∧ (replies a.backend).outcome = .ok resp
  error_eq : ∀ e, r.response = .error e → e =
    if r.attempts = [] then .noHealthyUpstream else .allAttemptsFailed r.attempts.length
  selected : r.selected = (r.attempts.map Attempt.backend).head?

/-- What a request with the result `r` leaves of the pool of its service. -/
structure Leaves (r : HandleResult) (pool pool' : Pool) : Prop where
  length : pool'.backends.length = pool.backends.length
  served : ∀ i < pool.backends.length, (pool'.backend i).served =
    (pool.backend i).served + (r.attempts.map Attempt.backend).count i

/-- What a request does, apart from the counters of calls in flight. -/
structure Conduct (px : Proxy) (now : Nat) (req : Request) (replies : Nat → UpstreamReply)
    (r : HandleResult) (px' : Proxy) : Prop where
  noRoute : r.response = .error .noRoute ↔ px.Unserved req
  untouched : px.Unserved req → r.attempts = [] ∧ px'.pools = px.pools
  attempted : ∀ service pool, px.router.route req = some service →
    px.pools service = some pool → Attempted px pool now replies r
  leaves : ∀ service pool, px.router.route req = some service →
    px.pools service = some pool →
    (∀ name, name ≠ service → px'.pools name = px.pools name) ∧
      ∃ pool', px'.pools service = some pool' ∧ Leaves r pool pool'

/-- What a request does.  Each backend of each pool has as many calls in flight as
before. -/
structure Contract (px : Proxy) (now : Nat) (req : Request) (replies : Nat → UpstreamReply)
    (r : HandleResult) (px' : Proxy) : Prop extends Conduct px now req replies r px' where
  inFlight : ∀ name pool pool', px.pools name = some pool → px'.pools name = some pool' →
    ∀ i, (pool'.backend i).inFlight = (pool.backend i).inFlight

/-- The backends that a request to `pool` is to ask: down the order of failover to the
first one that answers, or as far as the retries go. -/
def toAsk (px : Proxy) (pool : Pool) (now : Nat) (req : Request)
    (replies : Nat → UpstreamReply) : List Nat :=
  let order := px.failoverOrder pool now req
  order.take (min (failingHead replies order) px.retriesAllowed + 1)

/-- Each backend that the request is to ask has room for one more call in flight. -/
def RoomToAsk (px : Proxy) (now : Nat) (req : Request) (replies : Nat → UpstreamReply) :
    Prop :=
  ∀ service pool, px.router.route req = some service → px.pools service = some pool →
    ∀ i ∈ px.toAsk pool now req replies, (pool.backend i).inFlight < u32Max

/-- A request that is not served changes no pool. -/
theorem contract_unrouted {px : Proxy} {req : Request} (hun : px.Unserved req) (now : Nat)
    (replies : Nat → UpstreamReply) (service : Option String) :
    Contract px now req replies (unrouted service) px.arrive := by
  have hno : ∀ name pool, px.router.route req = some name → px.pools name ≠ some pool := by
    intro name pool hroute hpool
    rcases hun with hnone | ⟨name', hroute', hnone⟩
    · simp [hnone] at hroute
    · obtain rfl := Option.some.inj (hroute.symm.trans hroute')
      simp [hnone] at hpool
  exact
    { noRoute := ⟨fun _ => hun, fun _ => rfl⟩
      untouched := fun _ => ⟨rfl, rfl⟩
      attempted := fun name pool hroute hpool => absurd hpool (hno name pool hroute)
      leaves := fun name pool hroute hpool => absurd hpool (hno name pool hroute)
      inFlight := fun name pool pool' hpool hpool' i => by
        obtain rfl := Option.some.inj (hpool.symm.trans hpool')
        rfl }

variable {px : Proxy} {now : Nat} {req : Request} {replies : Nat → UpstreamReply}
  {service : String} {pool : Pool} {response : Except ProxyError Response}
  {s₁ s : HandleLoop}

theorem Handled.not_unserved
    (h : Handled px now req replies service pool response s₁ s) : ¬ px.Unserved req := by
  intro hun
  rcases hun with hnone | ⟨name, hroute, hnone⟩
  · exact absurd (hnone.symm.trans h.routed) (by simp)
  · obtain rfl := Option.some.inj (hroute.symm.trans h.routed)
    exact absurd (hnone.symm.trans h.found) (by simp)

theorem Handled.attempted
    (h : Handled px now req replies service pool response s₁ s) :
    Attempted px pool now replies (Proxy.looped service response s) := by
  have htr := h.last.traced h.looped
  exact
    { nodup := htr.nodup
      available := fun i hi => by
        obtain ⟨hlt, _, hav, _⟩ := Pool.mem_candidates.mp (htr.candidates i hi)
        exact ⟨by simpa [start, Pool.poll] using hlt, hav⟩
      limit := htr.limit
      notOk := htr.notOk
      isRetry := htr.isRetry
      ok_eq := h.last.ok_eq h.looped
      ok_iff := h.ok_iff
      answered := fun _ hresp => h.answered hresp
      error_eq := fun _ he => h.error_eq he
      selected := htr.firstSelected }

theorem Handled.conduct
    (h : Handled px now req replies service pool response s₁ s) :
    Conduct px now req replies (Proxy.looped service response s)
      (px.arrive.finish service s) where
  noRoute := ⟨fun hno => absurd hno h.response_ne, fun hun => absurd hun h.not_unserved⟩
  untouched hun := absurd hun h.not_unserved
  attempted name q hroute hq := by
    obtain rfl := Option.some.inj (hroute.symm.trans h.routed)
    obtain rfl := Option.some.inj (hq.symm.trans h.found)
    exact h.attempted
  leaves name q hroute hq := by
    obtain rfl := Option.some.inj (hroute.symm.trans h.routed)
    obtain rfl := Option.some.inj (hq.symm.trans h.found)
    obtain ⟨hlen, hback⟩ := h.backends
    exact ⟨h.pools.2, s.pool, h.pools.1, hlen, fun i hi => (hback i hi).2⟩

/-- The counters are as before if each backend that was asked had room for a call. -/
theorem Handled.inFlight_iff
    (h : Handled px now req replies service pool response s₁ s) :
    (∀ i, (s.pool.backend i).inFlight = (pool.backend i).inFlight) ↔
      ∀ i ∈ s.attempts.map Attempt.backend, (pool.backend i).inFlight < u32Max := by
  obtain ⟨hlen, hback⟩ := h.backends
  have hlt : ∀ i ∈ s.attempts.map Attempt.backend, i < pool.backends.length := fun i hi =>
    (h.attempted.available i hi).1
  constructor
  · intro hsame i hi
    have heq := (hback i (hlt i hi)).1
    rw [if_pos hi, hsame i] at heq
    exact incr32_sub_one_eq_iff.mp heq.symm
  · intro hroom i
    by_cases hi : i < pool.backends.length
    · rw [(hback i hi).1]
      by_cases hmem : i ∈ s.attempts.map Attempt.backend
      · rw [if_pos hmem, incr32_sub_one_eq_iff]
        exact hroom i hmem
      · rw [if_neg hmem]
    · have hge := Nat.le_of_not_lt hi
      rw [Pool.backend_of_ge hge, Pool.backend_of_ge (hlen ▸ hge)]

/-- On every proxy that calls can lead to, each request terminates and does what
`Conduct` says.  The counters of calls in flight are as before exactly if the backends
that the request is to ask have room for one more call. -/
theorem handle_contract_iff {px : Proxy} (h : px.Reachable) (now : Nat) (req : Request)
    (replies : Nat → UpstreamReply) :
    ∃ r px', px.handle now req replies = some (r, px') ∧
      Conduct px now req replies r px' ∧
      (Contract px now req replies r px' ↔ px.RoomToAsk now req replies) := by
  have hp := poolsOk_of_reachable h
  rcases handle_cases hp now req replies with
    ⟨hroute, heq⟩ | ⟨service, hroute, hnone, heq⟩ | ⟨service, pool, response, s₁, s, hh, heq⟩
  · have hcontract := contract_unrouted (Or.inl hroute) now replies none
    refine ⟨_, _, heq, hcontract.toConduct, fun _ name pool hroute' => ?_, fun _ => hcontract⟩
    simp [hroute] at hroute'
  · have hcontract := contract_unrouted (Or.inr ⟨service, hroute, hnone⟩) now replies
      (some service)
    refine ⟨_, _, heq, hcontract.toConduct, fun _ name pool hroute' hpool => ?_,
      fun _ => hcontract⟩
    obtain rfl := Option.some.inj (hroute.symm.trans hroute')
    simp [hnone] at hpool
  · -- what the request is to ask is what it has asked
    have hasked : s.attempts.map Attempt.backend = px.toAsk pool now req replies := by
      obtain ⟨r, px', heq', hplan⟩ := handle_planned hp hh.routed hh.found now replies
      obtain ⟨rfl, _⟩ := Prod.mk.inj (Option.some.inj (heq.symm.trans heq'))
      exact hplan.asked
    refine ⟨_, _, heq, hh.conduct, fun hcontract name q hroute hq => ?_, fun hroom => ?_⟩
    · obtain rfl := Option.some.inj (hroute.symm.trans hh.routed)
      obtain rfl := Option.some.inj (hq.symm.trans hh.found)
      rw [← hasked]
      exact hh.inFlight_iff.mp (hcontract.inFlight name q s.pool hh.found hh.pools.1)
    · have hsame := hh.inFlight_iff.mpr (hasked ▸ hroom service pool hh.routed hh.found)
      refine ⟨hh.conduct, fun name q q' hq hq' i => ?_⟩
      by_cases hname : name = service
      · subst hname
        obtain rfl := Option.some.inj (hq.symm.trans hh.found)
        obtain rfl := Option.some.inj (hq'.symm.trans hh.pools.1)
        exact hsame i
      · rw [hh.pools.2 name hname] at hq'
        obtain rfl := Option.some.inj (hq.symm.trans hq')
        rfl

/-- Two idle backends have room for a request. -/
theorem handle_contract_iff_two :
    ∃ r px', twoBackends.handle 5 (.new .get "/") (fun _ => ⟨.ok (.new 200), 3⟩) =
        some (r, px') ∧
      Contract twoBackends 5 (.new .get "/") (fun _ => ⟨.ok (.new 200), 3⟩) r px' := by
  obtain ⟨r, px', heq, _, hiff⟩ := handle_contract_iff reachable_twoBackends 5
    (.new .get "/") (fun _ => ⟨.ok (.new 200), 3⟩)
  refine ⟨r, px', heq, hiff.mpr fun name pool hroute hpool => ?_⟩
  obtain rfl : "api" = name := Option.some.inj hroute
  obtain rfl : Pool.twoBackends = pool := Option.some.inj hpool
  decide

/-- A backend with no room for one more call in flight. -/
def fullBackend : Backend := { Backend.new "a" 1 .default .default with inFlight := u32Max }

/-- A proxy with one route, to a pool of that backend. -/
def oneFull : Proxy :=
  routed.addPool ((Pool.new "api" .roundRobin .default).addBackend fullBackend)

theorem reachable_oneFull : oneFull.Reachable := by
  refine ⟨routed, [.addPool _], ⟨_, _, rfl⟩, ⟨?_, trivial⟩, rfl⟩
  exact ⟨.new "api" .roundRobin .default, [.addBackend fullBackend], ⟨_, _, _, rfl⟩,
    ⟨⟨.default, .default, rfl⟩, trivial⟩, rfl⟩

/-- A request to a backend with `u32::MAX` calls in flight leaves it with none. -/
theorem handle_contract_wraps :
    oneFull.Reachable ∧
      ¬ ∃ r px', oneFull.handle 5 (.new .get "/") (fun _ => ⟨.ok (.new 200), 3⟩) =
          some (r, px') ∧
        Contract oneFull 5 (.new .get "/") (fun _ => ⟨.ok (.new 200), 3⟩) r px' := by
  refine ⟨reachable_oneFull, fun hexists => ?_⟩
  obtain ⟨r, px', heq, hcontract⟩ := hexists
  have hleft : (((oneFull.handle 5 (.new .get "/") (fun _ => ⟨.ok (.new 200), 3⟩)).bind
      fun result => result.2.pools "api").map fun q => (q.backend 0).inFlight) = some 0 := by
    decide
  rw [heq] at hleft
  obtain ⟨q, hq, hzero⟩ := Option.map_eq_some_iff.mp hleft
  have hsame := hcontract.inFlight "api" _ q rfl hq 0
  rw [hzero] at hsame
  exact absurd hsame (by decide)

end Proxy

end Echofront
