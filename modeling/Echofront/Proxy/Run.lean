import Echofront.Proxy.Loop

/-!
# Runs of the proxy

`ProxyOp` is one call on a proxy and `proxySystem` the proxy as a system over
these calls.  `pool_mut` hands a pool out, so between two requests a caller may
leave any pool there that calls on a pool can produce.

`handle_cases` says what one request can do, in terms of the loop, and
`Handled` what follows of its result.
-/

namespace Echofront

open Lib

/-- One call on a proxy. -/
inductive ProxyOp where
  | setStickyHeader (header : String)
  | addPool (pool : Pool)
  | poolMut (name : String) (pool : Pool)
  | handle (now : Nat) (req : Request) (replies : Nat → UpstreamReply)
  | runHealthChecks (now : Nat) (probe : String → Nat → Bool)

namespace Proxy

def apply (px : Proxy) : ProxyOp → Proxy
  | .setStickyHeader header => px.setStickyHeader header
  | .addPool pool => px.addPool pool
  | .poolMut name pool => px.setPool name pool
  | .handle now req replies => ((px.handle now req replies).map Prod.snd).getD px
  | .runHealthChecks now probe => px.runHealthChecks now probe

/-- A call the source can make. -/
def Accepts (px : Proxy) : ProxyOp → Prop
  | .addPool pool => pool.Reachable
  | .poolMut name pool => pool.Reachable ∧ px.pools name ≠ none
  | .setStickyHeader _ | .handle _ _ _ | .runHealthChecks _ _ => True

end Proxy

/-- The proxy as a system over its calls. -/
def proxySystem : System Proxy ProxyOp where
  init px := ∃ router retry, px = .new router retry
  ok := Proxy.Accepts
  step := Proxy.apply

namespace Proxy

/-- A state that some calls on a new proxy lead to. -/
def Reachable (px : Proxy) : Prop := proxySystem.Reachable px

/-- Every pool of the proxy is reachable. -/
def PoolsOk (px : Proxy) : Prop :=
  ∀ name pool, px.pools name = some pool → pool.Reachable

theorem PoolsOk.setPool {px : Proxy} (h : PoolsOk px) {pool : Pool} (hp : pool.Reachable)
    (name : String) : PoolsOk (px.setPool name pool) := by
  intro n q hq
  by_cases hn : n = name
  · subst hn
    obtain rfl : pool = q := by simpa [Proxy.setPool] using hq
    exact hp
  · exact h n q (by simpa [Proxy.setPool, hn] using hq)

/-! ## One request -/

/-- The loop of a request, as a start, a state before the last turn, and an
end. -/
structure Handled (px : Proxy) (now : Nat) (req : Request) (replies : Nat → UpstreamReply)
    (service : String) (pool : Pool) (response : Except ProxyError Response)
    (s₁ s : HandleLoop) : Prop where
  routed : px.router.route req = some service
  found : px.pools service = some pool
  looped : HandleLoop.Looped (px.arrive.callOf now req replies) (px.arrive.start pool now) s₁
  last : HandleLoop.LastTurn (px.arrive.callOf now req replies) (px.arrive.start pool now) s₁
    response s

theorem length_candidates_le (p : Pool) (now : Nat) (exclude : List Nat) :
    (p.candidates now exclude).length ≤ p.backends.length := by
  have hsub : p.candidates now exclude ⊆ List.range p.backends.length := fun i hi =>
    List.mem_range.mpr (Pool.mem_candidates.mp hi).1
  have hle := (List.subperm_of_subset (p.nodup_candidates now exclude) hsub).length_le
  rwa [List.length_range] at hle

theorem starts_start (px : Proxy) {pool : Pool} (h : pool.Reachable) (now : Nat) :
    HandleLoop.Starts (px.start pool now) :=
  ⟨System.Reachable.step (M := poolSystem) (a := .poll now) h trivial, rfl, rfl, rfl, rfl⟩

/-- The result of a request whose loop on `service` ends with `s`. -/
def looped (service : String) (response : Except ProxyError Response) (s : HandleLoop) :
    HandleResult where
  service := some service
  selected := s.firstSelected
  response := response
  attempts := s.attempts

/-- A request with a pool runs the loop, and the fuel is enough. -/
theorem handle_of_pool {px : Proxy} (h : PoolsOk px) {req : Request} {service : String}
    {pool : Pool} (hroute : px.router.route req = some service)
    (hpool : px.pools service = some pool) (now : Nat) (replies : Nat → UpstreamReply) :
    ∃ response s₁ s, Handled px now req replies service pool response s₁ s ∧
      px.handle now req replies =
        some (looped service response s, px.arrive.finish service s) := by
  have hrouter : px.arrive.router = px.router := rfl
  have hpools : px.arrive.pools = px.pools := rfl
  have hstart := starts_start px.arrive (h service pool hpool) now
  have hfuel : ((px.arrive.start pool now).pool.candidates now []).length <
      (px.arrive.start pool now).tried.length + (pool.backends.length + 1) := by
    have hle := length_candidates_le (pool.poll now) now []
    have hlen : (pool.poll now).backends.length = pool.backends.length := by
      simp [Pool.poll]
    rw [hlen] at hle
    simp only [start, List.length_nil]
    omega
  obtain ⟨response, s₁, s, hloop, hlooped, hlast⟩ :=
    (hstart.looped (c := px.arrive.callOf now req replies)).loop_spec hfuel
  exact ⟨response, s₁, s, ⟨hroute, hpool, hlooped, hlast⟩,
    by simp only [handle, hrouter, hroute, hpools, hpool, hloop, looped]⟩

/-- What one request can do: it has no route, no pool, or it runs the loop. -/
theorem handle_cases {px : Proxy} (h : PoolsOk px) (now : Nat) (req : Request)
    (replies : Nat → UpstreamReply) :
    (px.router.route req = none ∧
      px.handle now req replies = some (unrouted none, px.arrive)) ∨
    (∃ service, px.router.route req = some service ∧ px.pools service = none ∧
      px.handle now req replies = some (unrouted (some service), px.arrive)) ∨
    (∃ service pool response s₁ s,
      Handled px now req replies service pool response s₁ s ∧
      px.handle now req replies =
        some (looped service response s, px.arrive.finish service s)) := by
  have hrouter : px.arrive.router = px.router := rfl
  have hpools : px.arrive.pools = px.pools := rfl
  cases hroute : px.router.route req with
  | none => exact Or.inl ⟨rfl, by simp only [handle, hrouter, hroute]⟩
  | some service =>
    cases hpool : px.pools service with
    | none => exact Or.inr (Or.inl ⟨service, rfl, hpool,
      by simp only [handle, hrouter, hroute, hpools, hpool]⟩)
    | some pool =>
      obtain ⟨response, s₁, s, hh, heq⟩ := handle_of_pool h hroute hpool now replies
      exact Or.inr (Or.inr ⟨service, pool, response, s₁, s, hh, heq⟩)

/-- A request leaves every pool but the one it runs on, and that one has been
asked. -/
theorem Handled.pools {px : Proxy} {now : Nat} {req : Request} {replies : Nat → UpstreamReply}
    {service : String} {pool : Pool} {response : Except ProxyError Response}
    {s₁ s : HandleLoop} (_ : Handled px now req replies service pool response s₁ s) :
    (px.arrive.finish service s).pools service = some s.pool ∧
      ∀ name, name ≠ service → (px.arrive.finish service s).pools name = px.pools name := by
  refine ⟨?_, fun name hne => ?_⟩
  · simp [finish, setPool]
  · simp [finish, setPool, hne, arrive]

theorem poolsOk_apply {px : Proxy} (h : PoolsOk px) {op : ProxyOp} (hok : px.Accepts op) :
    PoolsOk (px.apply op) := by
  cases op with
  | setStickyHeader header => exact h
  | addPool pool => exact h.setPool hok pool.name
  | poolMut name pool => exact h.setPool hok.1 name
  | runHealthChecks now probe =>
    intro name q hq
    obtain ⟨p, hp, rfl⟩ := Option.map_eq_some_iff.mp hq
    exact System.Reachable.step (M := poolSystem) (a := .runHealthChecks now (probe name))
      (h name p hp) trivial
  | handle now req replies =>
    rcases handle_cases h now req replies with
      ⟨_, heq⟩ | ⟨_, _, _, heq⟩ | ⟨service, pool, response, s₁, s, hh, heq⟩
    · simp only [apply, heq]
      exact h
    · simp only [apply, heq]
      exact h
    · simp only [apply, heq]
      intro name q hq
      obtain ⟨hself, hother⟩ := hh.pools
      have hq : (px.arrive.finish service s).pools name = some q := hq
      by_cases hn : name = service
      · subst hn
        rw [hself] at hq
        obtain rfl := Option.some.inj hq
        exact (hh.last.traced hh.looped).pool.reachable
      · rw [hother name hn] at hq
        exact h name q hq

theorem poolsOk_of_init {px : Proxy} (h : proxySystem.init px) : PoolsOk px := by
  obtain ⟨router, retry, rfl⟩ := h
  intro name pool hp
  simp [new] at hp

theorem poolsOk_of_reachable {px : Proxy} (h : px.Reachable) : PoolsOk px :=
  System.Reachable.invariant (M := proxySystem) (I := PoolsOk)
    (fun _ h₀ => poolsOk_of_init h₀) (fun _ _ hpx hok => poolsOk_apply hpx hok) h

/-- The response is ok exactly if the last attempt is. -/
theorem Handled.ok_iff {px : Proxy} {now : Nat} {req : Request}
    {replies : Nat → UpstreamReply} {service : String} {pool : Pool}
    {response : Except ProxyError Response} {s₁ s : HandleLoop}
    (h : Handled px now req replies service pool response s₁ s) :
    (∃ resp, response = .ok resp) ↔ ∃ a, s.attempts.getLast? = some a ∧ a.ok = true := by
  rcases h.last.response h.looped with ⟨resp, a, hok, ha, haok, _⟩ | ⟨hall, herr⟩
  · exact ⟨fun _ => ⟨a, ha, haok⟩, fun _ => ⟨resp, hok⟩⟩
  · constructor
    · intro hexists
      obtain ⟨resp, hok⟩ := hexists
      exact absurd (hok.symm.trans herr) (by simp)
    · intro hexists
      obtain ⟨a, ha, haok⟩ := hexists
      have hfalse := hall a (List.mem_of_getLast? ha)
      rw [haok] at hfalse
      simp at hfalse

/-- A response that is ok is the reply of the backend of the last attempt. -/
theorem Handled.answered {px : Proxy} {now : Nat} {req : Request}
    {replies : Nat → UpstreamReply} {service : String} {pool : Pool}
    {response : Except ProxyError Response} {s₁ s : HandleLoop}
    (h : Handled px now req replies service pool response s₁ s) {resp : Response}
    (hresp : response = .ok resp) :
    ∃ a, s.attempts.getLast? = some a ∧ (replies a.backend).outcome = .ok resp := by
  rcases h.last.response h.looped with ⟨resp', a, hok, ha, _, hreply⟩ | ⟨_, herr⟩
  · obtain rfl := Except.ok.inj (hresp.symm.trans hok)
    exact ⟨a, ha, hreply⟩
  · exact absurd (hresp.symm.trans herr) (by simp)

/-- An error says whether there was an attempt, and how many. -/
theorem Handled.error_eq {px : Proxy} {now : Nat} {req : Request}
    {replies : Nat → UpstreamReply} {service : String} {pool : Pool}
    {response : Except ProxyError Response} {s₁ s : HandleLoop}
    (h : Handled px now req replies service pool response s₁ s) {e : ProxyError}
    (he : response = .error e) :
    e = if s.attempts = [] then .noHealthyUpstream
      else .allAttemptsFailed s.attempts.length := by
  rcases h.last.response h.looped with ⟨resp, _, hok, _⟩ | ⟨_, herr⟩
  · exact absurd (he.symm.trans hok) (by simp)
  · exact Except.error.inj (he.symm.trans herr)

/-- The response of a request that runs the loop is never `NoRoute`. -/
theorem Handled.response_ne {px : Proxy} {now : Nat} {req : Request}
    {replies : Nat → UpstreamReply} {service : String} {pool : Pool}
    {response : Except ProxyError Response} {s₁ s : HandleLoop}
    (h : Handled px now req replies service pool response s₁ s) :
    response ≠ .error .noRoute := by
  intro he
  have heq := h.error_eq he
  split_ifs at heq

/-- What a request that runs the loop does to the backends of its pool, counted
from before the poll.  A backend that it asks begins and ends a call. -/
theorem Handled.backends {px : Proxy} {now : Nat} {req : Request}
    {replies : Nat → UpstreamReply} {service : String} {pool : Pool}
    {response : Except ProxyError Response} {s₁ s : HandleLoop}
    (h : Handled px now req replies service pool response s₁ s) :
    s.pool.backends.length = pool.backends.length ∧
      ∀ i < pool.backends.length,
        (s.pool.backend i).inFlight =
          (if i ∈ s.attempts.map Attempt.backend then incr32 (pool.backend i).inFlight - 1
            else (pool.backend i).inFlight) ∧
        (s.pool.backend i).served = (pool.backend i).served +
          (s.attempts.map Attempt.backend).count i := by
  have htr := h.last.traced h.looped
  have hlen : (pool.poll now).backends.length = pool.backends.length := by
    simp [Pool.poll]
  refine ⟨htr.pool.length.trans hlen, fun i hi => ?_⟩
  have hpoll : (pool.poll now).backend i =
      (pool.backend i).poll pool.ewma pool.threshold now :=
    Pool.backend_apply_of_lt hi (.poll now)
  have hin : ((pool.poll now).backend i).inFlight = (pool.backend i).inFlight := by
    rw [hpoll, Backend.poll_inFlight]
  have hserved : ((pool.poll now).backend i).served = (pool.backend i).served := by
    rw [hpoll, Backend.poll_served]
  by_cases hmem : i ∈ s.attempts.map Attempt.backend
  · obtain ⟨hf, hs⟩ := htr.pool.tried i hmem
    rw [if_pos hmem, List.count_eq_one_of_mem htr.nodup hmem]
    exact ⟨hf.trans (congrArg (incr32 · - 1) hin), hs.trans (congrArg (· + 1) hserved)⟩
  · obtain ⟨hf, hs, _⟩ := Asked.fields_of_eraseWeight (htr.pool.untried i hmem)
    rw [if_neg hmem, List.count_eq_zero.mpr hmem]
    exact ⟨hf.trans hin, hs.trans hserved⟩

/-- A proxy with one route, and no pool yet. -/
def routed : Proxy := .new ⟨[.new none "/" "api"]⟩ .default

/-- A proxy with one route, to a pool of two backends. -/
def twoBackends : Proxy := routed.addPool .twoBackends

theorem reachable_twoBackends : twoBackends.Reachable :=
  ⟨routed, [.addPool .twoBackends], ⟨_, _, rfl⟩, ⟨Pool.reachable_twoBackends, trivial⟩, rfl⟩

end Proxy

end Echofront
