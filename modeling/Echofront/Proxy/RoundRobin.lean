import Echofront.Proxy.Run
import Echofront.Pool.RoundRobin

/-!
# Round robin across requests

The cursor of a round robin pool moves by one for each pick, and a failover inside a
request is a pick like any other.  Where a request starts in the cycle depends on how
many attempts the requests before it have made.

* `loop_advanced` says that the attempts of a request are its picks, so that
  `Pool.Advanced` says where the request leaves the cursor.
* `Cycled` is the invariant of a run of requests, and `roundRobin_first_picks` says
  when their first picks are fair.
* `roundRobin_failover_repeats` is a run in which they are not.
-/

namespace Echofront

open Lib

/-! ## The cursor in one request -/

/-- The locals that a turn leaves. -/
def Turn.locals : Turn → HandleLoop
  | .finished _ s => s
  | .again s => s

namespace HandleLoop

open Pool (Advanced)

variable {c : Call} {s s' : HandleLoop} {q : Pool}

theorem retry_locals (s : HandleLoop) (maxRetries : Nat) :
    (s.retry maxRetries).locals.pool = s.pool ∧
      (s.retry maxRetries).locals.attempts = s.attempts := by
  rcases retry_cases s maxRetries with ⟨_, h⟩ | ⟨_, _, h⟩ | ⟨_, _, h⟩ <;> rw [h] <;>
    exact ⟨rfl, rfl⟩

/-- The attempts of the loop are its picks. -/
theorem turn_advanced (h : Advanced q s.attempts.length s.pool) :
    Advanced q (s.turn c).locals.attempts.length (s.turn c).locals.pool := by
  have hpair : s.pool.select c.now c.key s.tried =
    ((s.pool.select c.now c.key s.tried).1, (s.pool.select c.now c.key s.tried).2) := rfl
  cases hsel : (s.pool.select c.now c.key s.tried).1 with
  | none =>
    have hnil := Pool.select_of_nil c.key (Pool.select_eq_none_iff.mp hsel)
    rw [turn, hnil]
    exact h
  | some idx =>
    have hpick := h.select hsel
    rw [hsel] at hpair
    cases hreply : (c.replies idx).outcome with
    | ok resp =>
      have hturn : s.turn c = .finished (.ok resp)
          ((asking c s idx).succeed c.now idx resp (c.replies idx).latencyMs) := by
        rw [turn, hpair]
        simp only [hreply, asking]
      rw [hturn]
      simp only [Turn.locals, succeed, asking, ask, List.length_append, List.length_singleton]
      exact hpick.keep rfl rfl
    | error e =>
      have hturn : s.turn c =
          ((asking c s idx).fail c.now idx e (c.replies idx).latencyMs).retry c.maxRetries := by
        rw [turn, hpair]
        simp only [hreply, asking]
      obtain ⟨hpool, hattempts⟩ := retry_locals
        ((asking c s idx).fail c.now idx e (c.replies idx).latencyMs) c.maxRetries
      rw [hturn, hpool, hattempts]
      simp only [fail, asking, ask, List.length_append, List.length_singleton]
      exact hpick.keep rfl rfl

theorem loop_advanced {fuel : Nat} {response : Except ProxyError Response}
    (h : Advanced q s.attempts.length s.pool) (hl : loop c fuel s = some (response, s')) :
    Advanced q s'.attempts.length s'.pool := by
  induction fuel generalizing s with
  | zero => simp [loop] at hl
  | succ fuel ih =>
    have hturn := turn_advanced (c := c) h
    rw [loop] at hl
    cases ht : s.turn c with
    | finished response' s₁ =>
      rw [ht] at hl hturn
      obtain ⟨_, rfl⟩ := Prod.mk.inj (Option.some.inj hl)
      exact hturn
    | again s₁ =>
      rw [ht] at hl hturn
      exact ih hturn hl

/-- The first selection of a request is what its pool selects after the poll,
whatever happens later. -/
theorem LastTurn.firstSelected {s₀ : HandleLoop} {response : Except ProxyError Response}
    (hl : LastTurn c s₀ s response s') (h : Looped c s₀ s) :
    s'.firstSelected = (s₀.pool.select c.now c.key []).1 := by
  have hpicked : ∀ {idx : Nat} {ok : Bool}, Selects c s₀ s idx → Answered s₀ s idx ok s' →
      s'.firstSelected = (s₀.pool.select c.now c.key []).1 := by
    intro idx ok hsel ha
    rw [ha.firstSelected]
    cases htried : s.tried with
    | nil => exact (hsel.first htried).symm
    | cons i is => exact (h.firstPick i (by simp [htried])).symm
  cases hl with
  | unselected hall =>
    rw [h.firstSelected]
    cases htried : s.tried with
    | nil =>
      rw [htried] at hall
      have hnil : s₀.pool.candidates c.now [] = [] :=
        List.eq_nil_iff_forall_not_mem.mpr (fun i hi => absurd (hall i hi) (by simp))
      exact (Pool.select_eq_none_iff.mpr hnil).symm
    | cons i is => exact (h.firstPick i (by simp [htried])).symm
  | succeeded hsel _ ha _ => exact hpicked hsel ha
  | exhausted hsel _ ha _ => exact hpicked hsel ha

end HandleLoop

namespace Proxy

open Pool (Advanced)

/-- The result of a call that is a request routed to `service`. -/
def requestTo (service : String) (px : Proxy) : ProxyOp → Option HandleResult
  | .handle now req replies =>
    if px.router.route req = some service then (px.handle now req replies).map Prod.fst
    else none
  | _ => none

/-- A call with which the backends of `service` stay the ones in `available`: a
request for `service` finds exactly these available after its poll, and nobody
replaces the pool or works on it directly. -/
def KeepsAvailable (service : String) (available : List Nat) (px : Proxy) : ProxyOp → Prop
  | .handle now req _ => px.router.route req = some service →
    ∀ p ∈ px.pools service, (p.poll now).availableIndices now [] = available
  | .addPool pool => pool.name ≠ service
  | .poolMut name _ => name ≠ service
  | .setStickyHeader _ | .runHealthChecks _ _ => True

/-- The attempts of some requests. -/
def attemptsIn (rs : List HandleResult) : Nat := (rs.map (fun r => r.attempts.length)).sum

/-- Where in a cycle of `n` backends a round robin pool stands after the requests
`rs`, if its cursor was at `cursor` before them. -/
def position (cursor n : Nat) (rs : List HandleResult) : Nat :=
  wrappingAdd64 cursor (attemptsIn rs) % n

/-- Where in the cycle each of the requests `rs` starts. -/
def positions (cursor n : Nat) (rs : List HandleResult) : List Nat :=
  (List.range rs.length).map (fun j => position cursor n (rs.take j))

theorem attemptsIn_concat (rs : List HandleResult) (r : HandleResult) :
    attemptsIn (rs ++ [r]) = attemptsIn rs + r.attempts.length := by
  simp [attemptsIn]

/-- A request moves the cursor of its pool by the number of its attempts. -/
theorem handle_advanced {px px' : Proxy} (h : PoolsOk px) {now : Nat} {req : Request}
    {replies : Nat → UpstreamReply} {r : HandleResult} {service : String} {pool : Pool}
    (hroute : px.router.route req = some service) (hpool : px.pools service = some pool)
    (hrr : pool.strategy = .roundRobin) (heq : px.handle now req replies = some (r, px')) :
    ∃ pool', px'.pools service = some pool' ∧ Advanced pool r.attempts.length pool' := by
  have hrouter : px.arrive.router.route req = some service := hroute
  have hpools : px.arrive.pools service = some pool := hpool
  have hstart : Advanced pool (px.arrive.start pool now).attempts.length
      (px.arrive.start pool now).pool :=
    (Advanced.refl hrr (Pool.rrCursor_lt_of_reachable (h service pool hpool))).keep rfl rfl
  simp only [handle, hrouter, hpools] at heq
  cases hloop : HandleLoop.loop (px.arrive.callOf now req replies)
      (pool.backends.length + 1) (px.arrive.start pool now) with
  | none => simp [hloop] at heq
  | some last =>
    simp only [hloop, Option.some.injEq, Prod.mk.injEq] at heq
    obtain ⟨rfl, rfl⟩ := heq
    exact ⟨last.2.pool, by simp [finish, setPool], HandleLoop.loop_advanced hstart hloop⟩

/-- What a request to a round robin pool returns and where it leaves the cursor. -/
theorem handle_roundRobin {px : Proxy} (h : PoolsOk px) {req : Request} {service : String}
    {pool : Pool} (hroute : px.router.route req = some service)
    (hpool : px.pools service = some pool) (hrr : pool.strategy = .roundRobin) (now : Nat)
    (replies : Nat → UpstreamReply) :
    ∃ r px' pool', px.handle now req replies = some (r, px') ∧
      px'.pools service = some pool' ∧ Advanced pool r.attempts.length pool' ∧
      r.selected = ((pool.poll now).availableIndices now [])[pool.rrCursor %
        ((pool.poll now).availableIndices now []).length]? := by
  obtain ⟨response, s₁, s, hh, heq⟩ := handle_of_pool h hroute hpool now replies
  obtain ⟨pool', hpool', hadv⟩ := handle_advanced h hroute hpool hrr heq
  have hpoll : (px.arrive.start pool now).pool.strategy = .roundRobin := hrr
  exact ⟨_, _, pool', heq, hpool', hadv,
    (hh.last.firstSelected hh.looped).trans (Pool.select_roundRobin hpoll now _ [])⟩

/-! ## A run of requests -/

/-- What a run of requests for `service` leaves, if its backends stay the ones in
`available`.  `pool₀` is its pool at the start. -/
structure Cycled (service : String) (available : List Nat) (pool₀ : Pool)
    (rs : List HandleResult) (px : Proxy) : Prop where
  poolsOk : PoolsOk px
  pool : ∃ pool, px.pools service = some pool ∧ Advanced pool₀ (attemptsIn rs) pool
  nodup : rs ≠ [] → available.Nodup
  selected : ∀ (j : Nat) (r : HandleResult), rs[j]? = some r →
    r.selected = available[position pool₀.rrCursor available.length (rs.take j)]?

variable {service : String} {available : List Nat} {pool₀ : Pool} {rs : List HandleResult}
  {px : Proxy}

/-- A request for `service` goes on with the cycle. -/
theorem Cycled.request (h : Cycled service available pool₀ rs px) {now : Nat} {req : Request}
    {replies : Nat → UpstreamReply} (hroute : px.router.route req = some service)
    (hkeep : KeepsAvailable service available px (.handle now req replies)) :
    ∃ r, requestTo service px (.handle now req replies) = some r ∧
      Cycled service available pool₀ (rs ++ [r]) (px.apply (.handle now req replies)) := by
  obtain ⟨pool, hpool, hadv⟩ := h.pool
  obtain ⟨r, px', pool', heq, hpool', hadv', hsel⟩ :=
    handle_roundRobin h.poolsOk hroute hpool hadv.strategy now replies
  have havail := hkeep hroute pool hpool
  have happly : px.apply (.handle now req replies) = px' := by simp [apply, heq]
  rw [havail, hadv.cursor] at hsel
  refine ⟨r, by simp [requestTo, hroute, heq], ?_, ?_, fun _ => ?_,
    System.forall_getElem?_concat (fun j r' hr' => ?_) ?_⟩
  · exact poolsOk_apply h.poolsOk trivial
  · rw [happly, attemptsIn_concat]
    exact ⟨pool', hpool', hadv.trans hadv'⟩
  · rw [← havail]
    exact Pool.nodup_availableIndices _ _ _
  · have hlt := (List.getElem?_eq_some_iff.mp hr').1
    rw [List.take_append_of_le_length (Nat.le_of_lt hlt)]
    exact h.selected j r' hr'
  · rw [List.take_append_of_le_length (Nat.le_refl _), List.take_length]
    exact hsel

/-- Any other call leaves the cursor. -/
theorem Cycled.other (h : Cycled service available pool₀ rs px) {op : ProxyOp}
    (hok : px.Accepts op) (hkeep : KeepsAvailable service available px op)
    (hno : ∀ now req replies, op = .handle now req replies →
      px.router.route req ≠ some service) :
    Cycled service available pool₀ rs (px.apply op) := by
  obtain ⟨pool, hpool, hadv⟩ := h.pool
  refine ⟨poolsOk_apply h.poolsOk hok, ?_, h.nodup, h.selected⟩
  cases op with
  | setStickyHeader header => exact ⟨pool, hpool, hadv⟩
  | addPool p =>
    exact ⟨pool, by simpa [apply, addPool, setPool, Ne.symm hkeep] using hpool, hadv⟩
  | poolMut name p =>
    exact ⟨pool, by simpa [apply, setPool, Ne.symm hkeep] using hpool, hadv⟩
  | runHealthChecks now probe =>
    exact ⟨pool.runHealthChecks now (probe service),
      by simp [apply, runHealthChecks, hpool], hadv.keep rfl rfl⟩
  | handle now req replies =>
    have hroute := hno now req replies rfl
    rcases handle_cases h.poolsOk now req replies with
      ⟨_, heq⟩ | ⟨_, _, _, heq⟩ | ⟨service', pool', response, s₁, s, hh, heq⟩
    · exact ⟨pool, by simp only [apply, heq]; exact hpool, hadv⟩
    · exact ⟨pool, by simp only [apply, heq]; exact hpool, hadv⟩
    · have hne : service ≠ service' := fun he => hroute (he ▸ hh.routed)
      refine ⟨pool, ?_, hadv⟩
      simp only [apply, heq, Option.map_some, Option.getD_some]
      rw [hh.pools.2 service hne]
      exact hpool

/-- The run lemma. -/
theorem cycled_exec {px₀ : Proxy} (h : px₀.Reachable) (hpool : px₀.pools service = some pool₀)
    (hrr : pool₀.strategy = .roundRobin) {ops : List ProxyOp}
    (hv : proxySystem.Valid px₀ ops)
    (hops : proxySystem.Always (KeepsAvailable service available) px₀ ops) :
    Cycled service available pool₀ (proxySystem.events (requestTo service) px₀ ops)
      (proxySystem.exec px₀ ops) := by
  have hok := poolsOk_of_reachable h
  refine System.Always.history (M := proxySystem)
    (I := fun ops px => Cycled service available pool₀
      (proxySystem.events (requestTo service) px₀ ops) px)
    ?_ (fun ops op _ hop hc => ?_) (hv.and hops)
  · have hlt := Pool.rrCursor_lt_of_reachable (hok service pool₀ hpool)
    exact ⟨hok, ⟨pool₀, hpool, .refl hrr hlt⟩, fun hne => absurd rfl hne,
      fun j r hr => absurd hr (by simp [System.events])⟩
  · obtain ⟨hacc, hkeep⟩ := hop
    rw [System.events_append]
    by_cases hreq : ∃ now req replies, op = .handle now req replies ∧
        (proxySystem.exec px₀ ops).router.route req = some service
    · obtain ⟨now, req, replies, rfl, hroute⟩ := hreq
      obtain ⟨r, hr, hnext⟩ := hc.request hroute hkeep
      simp only [System.events, hr, Option.toList_some, List.append_nil]
      exact hnext
    · have hno : ∀ now req replies, op = .handle now req replies →
          (proxySystem.exec px₀ ops).router.route req ≠ some service :=
        fun now req replies he hroute => hreq ⟨now, req, replies, he, hroute⟩
      have hnone : requestTo service (proxySystem.exec px₀ ops) op = none := by
        cases op with
        | handle now req replies => exact if_neg (hno now req replies rfl)
        | _ => rfl
      simp only [System.events, hnone, Option.toList_none, List.append_nil]
      exact hc.other hacc hkeep hno

theorem length_positions (cursor n : Nat) (rs : List HandleResult) :
    (positions cursor n rs).length = rs.length := by
  simp [positions]

theorem Cycled.map_selected (h : Cycled service available pool₀ rs px) :
    rs.map HandleResult.selected =
      (positions pool₀.rrCursor available.length rs).map (fun i => available[i]?) := by
  apply List.ext_getElem?
  intro j
  rcases Nat.lt_or_ge j rs.length with hj | hj
  · simp [positions, hj, h.selected j rs[j] (List.getElem?_eq_getElem hj)]
  · simp [positions, hj]

theorem Cycled.perm_iff (h : Cycled service available pool₀ rs px)
    (hlen : rs.length = available.length) :
    (rs.map HandleResult.selected).Perm (available.map some) ↔
      (positions pool₀.rrCursor available.length rs).Nodup := by
  have hnodup : available.Nodup := by
    cases available with
    | nil => exact .nil
    | cons i is => exact h.nodup (List.ne_nil_of_length_pos (hlen ▸ Nat.succ_pos _))
  rw [h.map_selected]
  refine perm_getElem?_iff hnodup (fun i hi => ?_) ((length_positions _ _ _).trans hlen)
  obtain ⟨j, hj, rfl⟩ := List.mem_map.mp hi
  rw [List.mem_range, hlen] at hj
  exact Nat.mod_lt _ (Nat.zero_lt_of_lt hj)

/-- Without a failover the requests start one after the other. -/
theorem positions_of_one {cursor n : Nat} (hone : ∀ r ∈ rs.dropLast, r.attempts.length = 1)
    (hlt : cursor + rs.length ≤ 2 ^ 64) :
    positions cursor n rs = (List.range rs.length).map (fun j => (cursor + j) % n) := by
  refine List.map_congr_left (fun j hj => ?_)
  rw [List.mem_range] at hj
  have hsum : attemptsIn (rs.take j) = j := by
    have hall : (rs.take j).map (fun r => r.attempts.length) = List.replicate j 1 := by
      refine List.eq_replicate_iff.mpr ⟨by simp [Nat.le_of_lt hj], fun k hk => ?_⟩
      obtain ⟨r, hr, rfl⟩ := List.mem_map.mp hk
      refine hone r ?_
      rw [List.dropLast_eq_take]
      exact List.take_subset_take_left rs (by omega) hr
    simp [attemptsIn, hall]
  have hexact : wrappingAdd64 cursor j = cursor + j := Nat.mod_eq_of_lt (by omega)
  rw [position, hsum, hexact]

/-- When round robin is fair across requests.  In a run with requests for a round
robin pool that each find the same backends available, a request starts with the
backend at the cursor, and the cursor has moved by one for each attempt of the
requests before it.  So the first picks of as many requests as there are backends
are a permutation of them exactly when the requests start at different positions
of the cycle: for one, when none but the last fails over and the cursor does not
pass `usize::MAX`. -/
theorem roundRobin_first_picks {px : Proxy} (h : px.Reachable) {service : String} {pool : Pool}
    (hpool : px.pools service = some pool) (hrr : pool.strategy = .roundRobin)
    {ops : List ProxyOp} (hv : proxySystem.Valid px ops) {available : List Nat}
    (hops : proxySystem.Always (KeepsAvailable service available) px ops) :
    let rs := proxySystem.events (requestTo service) px ops
    (∀ (j : Nat) (r : HandleResult), rs[j]? = some r →
      r.selected = available[position pool.rrCursor available.length (rs.take j)]?) ∧
    (rs.length = available.length →
      ((rs.map HandleResult.selected).Perm (available.map some) ↔
        (positions pool.rrCursor available.length rs).Nodup) ∧
      ((∀ r ∈ rs.dropLast, r.attempts.length = 1) → pool.rrCursor + rs.length ≤ 2 ^ 64 →
        (rs.map HandleResult.selected).Perm (available.map some))) := by
  intro rs
  have hc := cycled_exec h hpool hrr hv hops
  refine ⟨hc.selected, fun hlen => ⟨hc.perm_iff hlen, fun hone hlt => ?_⟩⟩
  rw [hc.perm_iff hlen, positions_of_one hone hlt, hlen]
  exact nodup_cycle pool.rrCursor available.length

instance (service : String) (available : List Nat) (px : Proxy) :
    ∀ op, Decidable (KeepsAvailable service available px op)
  | .handle now req _ => inferInstanceAs (Decidable (px.router.route req = some service →
      ∀ p ∈ px.pools service, (p.poll now).availableIndices now [] = available))
  | .addPool pool => inferInstanceAs (Decidable (pool.name ≠ service))
  | .poolMut name _ => inferInstanceAs (Decidable (name ≠ service))
  | .setStickyHeader _ | .runHealthChecks _ _ => inferInstanceAs (Decidable True)

/-- Two requests to two backends. -/
def twoRequests (replies : Nat → UpstreamReply) : List ProxyOp :=
  [.handle 5 (.new .get "/") replies, .handle 6 (.new .get "/") replies]

/-- Both backends answer, and each request starts with another one. -/
theorem roundRobin_first_picks_two :
    ((proxySystem.events (requestTo "api") twoBackends
      (twoRequests (fun _ => ⟨.ok (.new 200), 3⟩))).map HandleResult.selected).Perm
        [some 0, some 1] := by
  have hops : proxySystem.Always (KeepsAvailable "api" [0, 1]) twoBackends
      (twoRequests (fun _ => ⟨.ok (.new 200), 3⟩)) := by decide
  have hv : proxySystem.Valid twoBackends (twoRequests (fun _ => ⟨.ok (.new 200), 3⟩)) :=
    ⟨trivial, trivial, trivial⟩
  have h := roundRobin_first_picks reachable_twoBackends rfl rfl hv hops
  exact (h.2 (by decide)).2 (by decide) (by decide)

/-- The first of two backends fails.  Each request fails over to the second one, the
cursor comes around, and the next request starts with the first one again. -/
theorem roundRobin_failover_repeats :
    let replies : Nat → UpstreamReply :=
      fun i => if i = 0 then ⟨.error .timeout, 30⟩ else ⟨.ok (.new 200), 3⟩
    let rs := proxySystem.events (requestTo "api") twoBackends (twoRequests replies)
    twoBackends.Reachable ∧ proxySystem.Valid twoBackends (twoRequests replies) ∧
      (twoBackends.pools "api").map Pool.strategy = some .roundRobin ∧
      proxySystem.Always (KeepsAvailable "api" [0, 1]) twoBackends (twoRequests replies) ∧
      rs.length = 2 ∧ rs.map HandleResult.selected = [some 0, some 0] ∧
      ¬ (rs.map HandleResult.selected).Perm [some 0, some 1] :=
  ⟨reachable_twoBackends, ⟨trivial, trivial, trivial⟩, rfl, by decide, by decide, by decide,
    by decide⟩

end Proxy

end Echofront
