import Echofront.Proxy.Session
import Echofront.Upstream

/-!
# The proxy on its upstreams

The model of a request takes one reply for each backend.  Here the loop of
`Proxy::handle` and the health checks ask the upstreams themselves, which may change
their state with each call and may share it.

* `loopLive` and `handleLive` are the loop on the upstreams.  `loop_live` says that one
  reply for each backend is enough: a request asks no backend twice, so the replies that
  it gets are a table.
* `probeLoop` is the loop of `Pool::run_health_checks`, and `probeLoop_eq` says the same
  of the probes.
* `liveSystem` is a proxy in service on its upstreams, and `live_refines_session` the
  simulation: what it shows outside is what a session shows.
-/

namespace Echofront

open Lib

universe u

variable {σ : Type u}

/-! ## A request -/

/-- The inputs of the loop without the replies. -/
structure Outgoing where
  service : String
  req : Request
  now : Nat
  key : Option String
  maxRetries : Nat

/-- The inputs of the loop with a table of replies. -/
def Outgoing.call (o : Outgoing) (replies : Nat → UpstreamReply) : Call where
  now := o.now
  key := o.key
  maxRetries := o.maxRetries
  replies := replies

namespace HandleLoop

/-- One turn of the loop of `Proxy::handle`, with the call of `Upstream::send`. -/
def turnLive (out : Outside σ) (o : Outgoing) (s : HandleLoop) (w : σ) : Turn × σ :=
  match s.pool.select o.now o.key s.tried with
  | (none, pool) => (.finished (.error s.unselected) { s with pool := pool }, w)
  | (some idx, pool) =>
    let s := { s with pool := pool }.ask idx
    let (reply, w) := out.send o.service idx o.req w
    match reply.outcome with
    | .ok resp => (.finished (.ok resp) (s.succeed o.now idx resp reply.latencyMs), w)
    | .error e => ((s.fail o.now idx e reply.latencyMs).retry o.maxRetries, w)

/-- The loop of `Proxy::handle` on the upstreams. -/
def loopLive (out : Outside σ) (o : Outgoing) :
    Nat → HandleLoop → σ → Option (Except ProxyError Response × HandleLoop × σ)
  | 0, _, _ => none
  | fuel + 1, s, w =>
    match s.turnLive out o w with
    | (.finished response s, w) => some (response, s, w)
    | (.again s, w) => loopLive out o fuel s w

variable {out : Outside σ} {o : Outgoing} {s : HandleLoop}

/-- The upstreams of the backends `is` are asked one after the other, and give the
replies of the table. -/
inductive Sends (out : Outside σ) (o : Outgoing) (replies : Nat → UpstreamReply) :
    σ → List Nat → σ → Prop
  | nil (w : σ) : Sends out o replies w [] w
  | cons {w w' : σ} {i : Nat} {is : List Nat}
      (hreply : (out.send o.service i o.req w).1 = replies i)
      (h : Sends out o replies (out.send o.service i o.req w).2 is w') :
      Sends out o replies w (i :: is) w'

theorem Sends.congr {replies replies' : Nat → UpstreamReply} {w w' : σ} {is : List Nat}
    (h : Sends out o replies w is w') (hr : ∀ i ∈ is, replies' i = replies i) :
    Sends out o replies' w is w' := by
  induction h with
  | nil w => exact .nil w
  | @cons w w' i is hreply _ ih =>
    exact .cons (hreply.trans (hr i (by simp)).symm) (ih (fun j hj => hr j (by simp [hj])))

/-- A turn on the upstreams is a turn with the reply that it gets. -/
theorem turnLive_of_select {idx : Nat} (h : (s.pool.select o.now o.key s.tried).1 = some idx)
    (w : σ) {replies : Nat → UpstreamReply}
    (hreply : (out.send o.service idx o.req w).1 = replies idx) :
    s.turnLive out o w = (s.turn (o.call replies), (out.send o.service idx o.req w).2) := by
  obtain ⟨q, hq⟩ : ∃ q, s.pool.select o.now o.key s.tried = (some idx, q) := ⟨_, by rw [← h]⟩
  simp only [turnLive, turn, Outgoing.call, hq, ← hreply]
  cases (out.send o.service idx o.req w).1.outcome <;> rfl

theorem turnLive_of_none (h : (s.pool.select o.now o.key s.tried).1 = none) (w : σ)
    (replies : Nat → UpstreamReply) :
    s.turnLive out o w = (s.turn (o.call replies), w) := by
  obtain ⟨q, hq⟩ : ∃ q, s.pool.select o.now o.key s.tried = (none, q) := ⟨_, by rw [← h]⟩
  simp only [turnLive, turn, Outgoing.call, hq]

/-- A turn reads the reply of the backend that it selects. -/
theorem turn_congr {replies replies' : Nat → UpstreamReply}
    (h : ∀ idx, (s.pool.select o.now o.key s.tried).1 = some idx → replies' idx = replies idx) :
    s.turn (o.call replies') = s.turn (o.call replies) := by
  cases hsel : (s.pool.select o.now o.key s.tried).1 with
  | none =>
    obtain ⟨q, hq⟩ : ∃ q, s.pool.select o.now o.key s.tried = (none, q) := ⟨_, by rw [← hsel]⟩
    simp only [turn, Outgoing.call, hq]
  | some idx =>
    obtain ⟨q, hq⟩ : ∃ q, s.pool.select o.now o.key s.tried = (some idx, q) :=
      ⟨_, by rw [← hsel]⟩
    simp only [turn, Outgoing.call, hq, h idx hsel]

/-- A turn that goes on has tried the backend it selected. -/
theorem tried_of_again {c : Call} {s₁ : HandleLoop} {idx : Nat}
    (h : (s.pool.select c.now c.key s.tried).1 = some idx) (hturn : s.turn c = .again s₁) :
    s₁.tried = s.tried ++ [idx] ∧
      s₁.attempts.map Attempt.backend = s.attempts.map Attempt.backend ++ [idx] := by
  rcases turn_of_select h with ⟨resp, _, heq⟩ | ⟨e, _, heq⟩
  · exact absurd (heq.symm.trans hturn) (by simp)
  · rw [heq] at hturn
    rcases retry_cases ((asking c s idx).fail c.now idx e (c.replies idx).latencyMs)
      c.maxRetries with ⟨_, hr⟩ | ⟨_, _, hr⟩ | ⟨_, _, hr⟩
    · exact absurd (hr.symm.trans hturn) (by simp)
    · exact absurd (hr.symm.trans hturn) (by simp)
    · obtain rfl := Turn.again.inj (hr.symm.trans hturn)
      refine ⟨rfl, ?_⟩
      simp [fail, asking, ask, attempt]

/-- A turn that ends after a selection has one more attempt. -/
theorem attempts_of_finished {c : Call} {s₁ : HandleLoop} {idx : Nat}
    {response : Except ProxyError Response}
    (h : (s.pool.select c.now c.key s.tried).1 = some idx)
    (hturn : s.turn c = .finished response s₁) :
    s₁.attempts.map Attempt.backend = s.attempts.map Attempt.backend ++ [idx] := by
  rcases turn_of_select h with ⟨resp, _, heq⟩ | ⟨e, _, heq⟩
  · obtain ⟨_, rfl⟩ := Turn.finished.inj (heq.symm.trans hturn)
    simp [succeed, asking, ask, attempt]
  · rw [heq] at hturn
    rcases retry_cases ((asking c s idx).fail c.now idx e (c.replies idx).latencyMs)
      c.maxRetries with ⟨_, hr⟩ | ⟨_, _, hr⟩ | ⟨_, _, hr⟩
    · obtain ⟨_, rfl⟩ := Turn.finished.inj (hr.symm.trans hturn)
      simp [fail, asking, ask, attempt]
    · obtain ⟨_, rfl⟩ := Turn.finished.inj (hr.symm.trans hturn)
      simp [fail, asking, ask, attempt]
    · exact absurd (hr.symm.trans hturn) (by simp)

/-- The pool of the next turn is reachable. -/
theorem reachable_of_again {c : Call} {s₁ : HandleLoop} (h : s.pool.Reachable)
    (hturn : s.turn c = .again s₁) : s₁.pool.Reachable := by
  have hpool := pool_turn c s
  rw [hturn] at hpool
  have hpool : s₁.pool = poolSystem.exec s.pool (s.turnCalls c) := hpool
  rw [hpool]
  exact System.Reachable.exec h (valid_turnCalls h c)

theorem not_tried_of_select (h : s.pool.Reachable) {now : Nat} {key : Option String}
    {idx : Nat} (hsel : (s.pool.select now key s.tried).1 = some idx) : idx ∉ s.tried :=
  (Pool.mem_candidates.mp (Pool.select_mem (Pool.ringOk_of_reachable h) hsel)).2.1

/-- The loop reads the replies of backends that have not been tried only. -/
theorem loop_congr {replies replies' : Nat → UpstreamReply} {fuel : Nat}
    (h : s.pool.Reachable) (hr : ∀ i, i ∉ s.tried → replies' i = replies i) :
    loop (o.call replies') fuel s = loop (o.call replies) fuel s := by
  induction fuel generalizing s with
  | zero => rfl
  | succ fuel ih =>
    have hturn : s.turn (o.call replies') = s.turn (o.call replies) :=
      turn_congr (fun idx hsel => hr idx (not_tried_of_select h hsel))
    rw [loop, loop, hturn]
    cases ht : s.turn (o.call replies) with
    | finished response s₁ => rfl
    | again s₁ =>
      refine ih (reachable_of_again h ht) (fun i hi => hr i (fun hmem => hi ?_))
      cases hsel : (s.pool.select o.now o.key s.tried).1 with
      | none => exact absurd ((turn_of_none (c := o.call replies) hsel).symm.trans ht) (by simp)
      | some idx =>
        rw [(tried_of_again (c := o.call replies) hsel ht).1]
        exact List.mem_append_left _ hmem

/-- The loop on the upstreams is the loop on the table of the replies that it gets.  By
induction on the fuel: the backend of this turn is asked in no later one, so its reply
goes into the table of the rest. -/
theorem loop_live (out : Outside σ) (o : Outgoing) {s : HandleLoop} (h : s.pool.Reachable)
    (fuel : Nat) (w : σ) :
    ∃ replies is w', Sends out o replies w is w' ∧ (∀ i ∈ is, i ∉ s.tried) ∧
      loopLive out o fuel s w =
        (loop (o.call replies) fuel s).map (fun r => (r.1, r.2, w')) ∧
      ∀ r, loop (o.call replies) fuel s = some r →
        r.2.attempts.map Attempt.backend = s.attempts.map Attempt.backend ++ is := by
  induction fuel generalizing s w with
  | zero =>
    exact ⟨fun _ => ⟨.error .timeout, 0⟩, [], w, .nil w, by simp, rfl, by simp [loop]⟩
  | succ fuel ih =>
    cases hsel : (s.pool.select o.now o.key s.tried).1 with
    | none =>
      have hturn := turn_of_none (c := o.call fun _ => ⟨.error .timeout, 0⟩) hsel
      refine ⟨fun _ => ⟨.error .timeout, 0⟩, [], w, .nil w, by simp, ?_, fun r hl => ?_⟩
      · rw [loopLive, turnLive_of_none hsel w, loop, hturn]
        rfl
      · rw [loop, hturn] at hl
        obtain rfl := Option.some.inj hl
        simp
    | some idx =>
      have hnew := not_tried_of_select h hsel
      generalize hsend : out.send o.service idx o.req w = sent
      obtain ⟨reply, w₁⟩ := sent
      have hreply : (out.send o.service idx o.req w).1 = reply := by rw [hsend]
      have hworld : (out.send o.service idx o.req w).2 = w₁ := by rw [hsend]
      cases ht : s.turn (o.call fun _ => reply) with
      | finished response s₁ =>
        have hlive : s.turnLive out o w = (s.turn (o.call fun _ => reply),
            (out.send o.service idx o.req w).2) := turnLive_of_select hsel w hreply
        refine ⟨fun _ => reply, [idx], w₁, .cons hreply (hworld ▸ .nil _),
          by simpa using hnew, ?_, fun r hl => ?_⟩
        · rw [loopLive, hlive, loop, ht, hworld]
          rfl
        · rw [loop, ht] at hl
          obtain rfl := Option.some.inj hl
          exact attempts_of_finished (c := o.call fun _ => reply) hsel ht
      | again s₁ =>
        obtain ⟨htried, hattempts⟩ := tried_of_again (c := o.call fun _ => reply) hsel ht
        have hreach := reachable_of_again h ht
        obtain ⟨replies, is, w', hsends, hfresh, hlive, hlog⟩ := ih hreach w₁
        have hidx : idx ∉ is := fun hi => hfresh idx hi (by simp [htried])
        -- the table of the rest, with the reply of this turn
        have hself : Function.update replies idx reply idx = reply := Function.update_self ..
        have hrest : ∀ i, i ≠ idx → Function.update replies idx reply i = replies i :=
          fun i hi => Function.update_of_ne hi ..
        have hturn : s.turn (o.call (Function.update replies idx reply)) = .again s₁ := by
          rw [← ht]
          refine turn_congr (fun j hj => ?_)
          obtain rfl := Option.some.inj (hsel.symm.trans hj)
          exact hself
        have hloop : loop (o.call (Function.update replies idx reply)) fuel s₁ =
            loop (o.call replies) fuel s₁ :=
          loop_congr hreach (fun i hi => hrest i (fun he => hi (by simp [htried, he])))
        refine ⟨Function.update replies idx reply, idx :: is, w',
          .cons (hreply.trans hself.symm) (hworld ▸ hsends.congr (fun i hi =>
            hrest i (fun he => hidx (he ▸ hi)))), fun i hi => ?_, ?_, fun r hl => ?_⟩
        · rcases List.mem_cons.mp hi with rfl | hi
          · exact hnew
          · exact fun hmem => hfresh i hi (by simp [htried, hmem])
        · rw [loopLive, turnLive_of_select hsel w (hreply.trans hself.symm), loop, hturn,
            hworld]
          simp only
          rw [hlive, hloop]
        · rw [loop, hturn] at hl
          have hl : loop (o.call replies) fuel s₁ = some r := hloop.symm.trans hl
          rw [hlog r hl, hattempts, List.append_assoc]
          rfl

end HandleLoop

/-! ## The health checks -/

namespace Pool

/-- The loop of `Pool::run_health_checks` on the upstreams of `service`, from the backend
with index `i` on. -/
def probeLoop (out : Outside σ) (service : String) (health : HealthConfig) (now : Nat) :
    Nat → List Backend → σ → List Backend × σ
  | _, [], w => ([], w)
  | i, b :: bs, w =>
    if b.probeDue health now then
      let (live, w) := out.probe service i w
      let (bs, w) := probeLoop out service health now (i + 1) bs w
      (b.runHealthCheck health now live :: bs, w)
    else
      let (bs, w) := probeLoop out service health now (i + 1) bs w
      (b :: bs, w)

/-- `Pool::run_health_checks` on the upstreams. -/
def runHealthChecksLive (out : Outside σ) (service : String) (p : Pool) (now : Nat) (w : σ) :
    Pool × σ :=
  let (backends, w) := probeLoop out service p.health now 0 p.backends w
  ({ p with backends := backends }, w)

/-- The health checks on the upstreams are those on the table of the probes that they
get. -/
theorem probeLoop_eq (out : Outside σ) (service : String) (health : HealthConfig) (now : Nat)
    (i : Nat) (bs : List Backend) (w : σ) :
    ∃ probe : Nat → Bool, (probeLoop out service health now i bs w).1 =
      bs.mapIdx (fun j b => b.runHealthCheck health now (probe (i + j))) := by
  induction bs generalizing i w with
  | nil => exact ⟨fun _ => true, rfl⟩
  | cons b bs ih =>
    by_cases hdue : b.probeDue health now = true
    · obtain ⟨probe, hrest⟩ := ih (i + 1) (out.probe service i w).2
      refine ⟨Function.update probe i (out.probe service i w).1, ?_⟩
      simp only [probeLoop, if_pos hdue, hrest, List.mapIdx_cons, Nat.add_zero,
        Function.update_self]
      refine congrArg (_ :: ·) (List.mapIdx_eq_mapIdx_iff.mpr (fun j hj => ?_))
      rw [Function.update_of_ne (by omega), Nat.add_right_comm, Nat.add_assoc]
    · obtain ⟨probe, hrest⟩ := ih (i + 1) w
      refine ⟨probe, ?_⟩
      have hsame : b.runHealthCheck health now (probe i) = b := by
        rw [Backend.runHealthCheck, if_neg hdue]
      simp only [probeLoop, if_neg hdue, hrest, List.mapIdx_cons, Nat.add_zero, hsame]
      refine congrArg (_ :: ·) (List.mapIdx_eq_mapIdx_iff.mpr (fun j hj => ?_))
      rw [Nat.add_right_comm, Nat.add_assoc]

theorem runHealthChecksLive_eq (out : Outside σ) (service : String) (p : Pool) (now : Nat)
    (w : σ) :
    ∃ probe, (p.runHealthChecksLive out service now w).1 = p.runHealthChecks now probe := by
  obtain ⟨probe, hloop⟩ := probeLoop_eq out service p.health now 0 p.backends w
  simp only [Nat.zero_add] at hloop
  refine ⟨probe, ?_⟩
  simp only [runHealthChecksLive, Pool.runHealthChecks, hloop]

end Pool

/-! ## The proxy in service -/

namespace Proxy

/-- `Proxy::handle` on the upstreams. -/
def handleLive (out : Outside σ) (px : Proxy) (req : Request) (w : σ) :
    Option (HandleResult × Proxy × σ) :=
  let now := out.nowMillis w
  let px := px.arrive
  match px.router.route req with
  | none => some (unrouted none, px, w)
  | some service =>
    match px.pools service with
    | none => some (unrouted (some service), px, w)
    | some pool =>
      let o : Outgoing := ⟨service, req, now, px.stickyKey req, px.budget.maxRetriesPerRequest⟩
      match HandleLoop.loopLive out o (pool.backends.length + 1) (px.start pool now) w with
      | none => none
      | some (response, s, w) =>
        some ({ service := some service
                selected := s.firstSelected
                response := response
                attempts := s.attempts }, px.finish service s, w)

/-- The turn of the pool `name` in the loop of `Proxy::run_health_checks`. -/
def checkPool (out : Outside σ) (now : Nat) (s : Proxy × σ) (name : String) : Proxy × σ :=
  match s.1.pools name with
  | none => s
  | some pool =>
    let (pool, w) := pool.runHealthChecksLive out name now s.2
    (s.1.setPool name pool, w)

/-- `Proxy::run_health_checks` on the upstreams.  The pools come in the order of the hash
map, `order`. -/
def runHealthChecksLive (out : Outside σ) (order : List String) (px : Proxy) (w : σ) :
    Proxy × σ :=
  order.foldl (checkPool out (out.nowMillis w)) (px, w)

/-- A request on the upstreams is a request with a table of the replies that it gets,
and it sends exactly its attempts, in their order. -/
theorem handleLive_eq (out : Outside σ) {px : Proxy} (h : PoolsOk px) (req : Request) (w : σ) :
    ∃ (o : Outgoing) (replies : Nat → UpstreamReply) (w' : σ), o.req = req ∧
      (∀ service, px.router.route req = some service → o.service = service) ∧
      px.handleLive out req w =
        (px.handle (out.nowMillis w) req replies).map (fun r => (r.1, r.2, w')) ∧
      ∀ r, px.handle (out.nowMillis w) req replies = some r →
        HandleLoop.Sends out o replies w (r.1.attempts.map Attempt.backend) w' := by
  have hrouter : px.arrive.router = px.router := rfl
  have hpools : px.arrive.pools = px.pools := rfl
  cases hroute : px.router.route req with
  | none =>
    have heq : ∀ replies, px.handle (out.nowMillis w) req replies =
        some (unrouted none, px.arrive) := fun replies => by
      simp only [handle, hrouter, hroute]
    refine ⟨⟨"", req, 0, none, 0⟩, fun _ => ⟨.error .timeout, 0⟩, w, rfl, by simp, ?_, ?_⟩
    · rw [heq]
      simp only [handleLive, hrouter, hroute]
      rfl
    · intro r hr
      obtain rfl := Option.some.inj ((heq _).symm.trans hr)
      exact .nil w
  | some service =>
    cases hpool : px.pools service with
    | none =>
      have heq : ∀ replies, px.handle (out.nowMillis w) req replies =
          some (unrouted (some service), px.arrive) := fun replies => by
        simp only [handle, hrouter, hroute, hpools, hpool]
      refine ⟨⟨service, req, 0, none, 0⟩, fun _ => ⟨.error .timeout, 0⟩, w, rfl, by simp, ?_, ?_⟩
      · rw [heq]
        simp only [handleLive, hrouter, hroute, hpools, hpool]
        rfl
      · intro r hr
        obtain rfl := Option.some.inj ((heq _).symm.trans hr)
        exact .nil w
    | some pool =>
      have hreach := (starts_start px.arrive (h service pool hpool) (out.nowMillis w)).reachable
      generalize ho : (⟨service, req, out.nowMillis w, px.arrive.stickyKey req,
        px.arrive.budget.maxRetriesPerRequest⟩ : Outgoing) = o
      obtain ⟨replies, is, w', hsends, _, hloop, hlog⟩ :=
        HandleLoop.loop_live out o hreach (pool.backends.length + 1) w
      have hcall : px.arrive.callOf (out.nowMillis w) req replies = o.call replies := by
        rw [← ho]
        rfl
      refine ⟨o, replies, w', by rw [← ho], by simp [← ho], ?_, fun r hr => ?_⟩
      · rw [handle_eq_loop hroute hpool, hcall]
        simp only [handleLive, hrouter, hroute, hpools, hpool, ho, hloop]
        cases HandleLoop.loop (o.call replies) (pool.backends.length + 1)
          (px.arrive.start pool (out.nowMillis w)) <;> rfl
      · rw [handle_eq_loop hroute hpool, hcall] at hr
        obtain ⟨t, ht, rfl⟩ := Option.map_eq_some_iff.mp hr
        have hasked : (looped service t.1 t.2).attempts.map Attempt.backend = is :=
          (hlog t ht).trans (List.nil_append is)
        rw [hasked]
        exact hsends

theorem checkPool_eq (out : Outside σ) (now : Nat) (px : Proxy) (w : σ) (name : String) :
    ∃ probe, (checkPool out now (px, w) name).1 =
      { px with pools := fun n => if n = name then
        (px.pools n).map (·.runHealthChecks now probe) else px.pools n } := by
  cases hpool : px.pools name with
  | none =>
    refine ⟨fun _ => true, ?_⟩
    have hsame : (fun n => if n = name then
        (px.pools n).map (·.runHealthChecks now fun _ => true) else px.pools n) = px.pools := by
      funext n
      by_cases hn : n = name
      · rw [if_pos hn, hn, hpool]
        rfl
      · rw [if_neg hn]
    simp only [checkPool, hpool, hsame]
  | some pool =>
    obtain ⟨probe, hprobe⟩ := pool.runHealthChecksLive_eq out name now w
    refine ⟨probe, ?_⟩
    have hpools : Function.update px.pools name (some (pool.runHealthChecks now probe)) =
        fun n => if n = name then
          (px.pools n).map (·.runHealthChecks now probe) else px.pools n := by
      funext n
      by_cases hn : n = name
      · subst hn
        rw [Function.update_self, if_pos rfl, hpool]
        rfl
      · rw [Function.update_of_ne hn, if_neg hn]
    simp only [checkPool, hpool, hprobe, setPool, hpools]

/-- The loop over the pools, in any order, is the check of all of them. -/
theorem runHealthChecksLive_eq (out : Outside σ) {order : List String} (hnodup : order.Nodup)
    {px : Proxy} (hall : ∀ name, px.pools name ≠ none → name ∈ order) (w : σ) :
    ∃ probe, (px.runHealthChecksLive out order w).1 =
      px.runHealthChecks (out.nowMillis w) probe := by
  have hfold : ∀ (now : Nat) (order : List String) (px : Proxy) (w : σ), order.Nodup →
      ∃ probe : String → Nat → Bool, (order.foldl (checkPool out now) (px, w)).1 =
        { px with pools := fun n => if n ∈ order then
          (px.pools n).map (·.runHealthChecks now (probe n)) else px.pools n } := by
    intro now order
    induction order with
    | nil => exact fun px w _ => ⟨fun _ _ => true, by simp⟩
    | cons name order ih =>
      intro px w hnd
      obtain ⟨hnew, hnd⟩ := List.nodup_cons.mp hnd
      obtain ⟨probe, hhead⟩ := checkPool_eq out now px w name
      obtain ⟨probes, hrest⟩ := ih (checkPool out now (px, w) name).1
        (checkPool out now (px, w) name).2 hnd
      refine ⟨Function.update probes name probe, ?_⟩
      rw [List.foldl_cons, hrest, hhead]
      congr 1
      funext n
      by_cases hn : n = name
      · subst hn
        simp [hnew]
      · simp [hn]
  obtain ⟨probe, heq⟩ := hfold (out.nowMillis w) order px w hnodup
  refine ⟨probe, heq.trans ?_⟩
  have hpools : (fun n => if n ∈ order then
      (px.pools n).map (·.runHealthChecks (out.nowMillis w) (probe n)) else px.pools n) =
      fun n => (px.pools n).map (·.runHealthChecks (out.nowMillis w) (probe n)) := by
    funext n
    by_cases hn : n ∈ order
    · rw [if_pos hn]
    · have hnone : px.pools n = none := by
        by_contra hsome
        exact hn (hall n hsome)
      rw [if_neg hn, hnone]
      rfl
  rw [hpools]
  rfl

end Proxy

/-! ## The simulation -/

/-- One call on a proxy in service on its upstreams, or a move of the world in between.
A pool comes with the upstreams of its backends, and those of a pool that it replaces go, so
`addPool` leads to another world.  `poolCall` is `pool_mut(name)` and a call on that pool;
its health checks ask the upstreams and not the `probe` of the call, and a backend that it
adds has the upstream that the world holds for its index.  `dispatch` is `Pool::dispatch`. -/
inductive LiveOp (σ : Type u) where
  | setStickyHeader (header : String)
  | addPool (pool : Pool) (w : σ)
  | poolCall (name : String) (op : Op)
  | dispatch (name : String) (idx : Nat) (req : Request)
  | handle (req : Request)
  | runHealthChecks (order : List String)
  | outside (w : σ)

namespace LiveOp

/-- The call does not put another pool in the place of the pool `service`. -/
def Keeps (service : String) : LiveOp σ → Prop
  | .addPool pool _ => pool.name ≠ service
  | _ => True

/-- A call that the source can make. -/
def Takes (px : Proxy) : LiveOp σ → Prop
  | .addPool pool _ => pool.Reachable
  | .poolCall name op => ∃ pool, px.pools name = some pool ∧ pool.Accepts op
  | .dispatch name idx _ => ∃ pool, px.pools name = some pool ∧ idx < pool.backends.length
  | .runHealthChecks order => order.Nodup ∧ ∀ name, name ∈ order ↔ px.pools name ≠ none
  | _ => True

/-- What a call does to the proxy and to the world. -/
def step (out : Outside σ) (s : Proxy × σ) : LiveOp σ → Proxy × σ
  | .setStickyHeader header => (s.1.setStickyHeader header, s.2)
  | .addPool pool w => (s.1.addPool pool, w)
  | .poolCall name (.runHealthChecks now _) => Proxy.checkPool out now s name
  | .poolCall name op =>
    match s.1.pools name with
    | none => s
    | some pool => (s.1.setPool name (pool.apply op), s.2)
  | .dispatch name idx req => (s.1, (out.send name idx req s.2).2)
  | .handle req => ((s.1.handleLive out req s.2).map Prod.snd).getD s
  | .runHealthChecks order => s.1.runHealthChecksLive out order s.2
  | .outside w => (s.1, w)

/-- The time a call is made at and the result it returns. -/
def seen (out : Outside σ) (s : Proxy × σ) :
    LiveOp σ → Option (Option Nat × Option HandleResult)
  | .setStickyHeader _ | .addPool _ _ => some (none, none)
  | .poolCall _ op => some (op.time, none)
  | .handle req => some (some (out.nowMillis s.2), (s.1.handleLive out req s.2).map Prod.fst)
  | .runHealthChecks _ => some (some (out.nowMillis s.2), none)
  | .dispatch _ _ _ | .outside _ => none

end LiveOp

/-- A proxy on its upstreams as a system. -/
def liveSystem (out : Outside σ) : System (Proxy × σ) (LiveOp σ) where
  init s := ∃ router retry, s.1 = .new router retry
  ok s := LiveOp.Takes s.1
  step := LiveOp.step out

namespace Proxy

/-- The time a call of a session is made at and the result it returns. -/
def seen (px : Proxy) : SessionOp → Option (Option Nat × Option HandleResult)
  | .handle now req replies => some (some now, (px.handle now req replies).map Prod.fst)
  | op => some (op.time, none)

/-- The step lemma: a call on the upstreams is a call of a session, with the replies and
the probes that it gets. -/
theorem live_step (out : Outside σ) {px : Proxy} (h : px.Reachable) {w : σ} {op : LiveOp σ}
    (hok : op.Takes px) :
    ∃ sops, sessionSystem.Valid px sops ∧
      sessionSystem.exec px sops = (op.step out (px, w)).1 ∧
      sessionSystem.events seen px sops = (op.seen out (px, w)).toList ∧
      ∀ service, op.Keeps service → ∀ sop ∈ sops, sop.Keeps service := by
  have hp := poolsOk_of_reachable h
  cases op with
  | setStickyHeader header =>
    exact ⟨[.setStickyHeader header], ⟨trivial, trivial⟩, rfl, rfl, by simp [SessionOp.Keeps]⟩
  | addPool pool w' =>
    exact ⟨[.addPool pool], ⟨hok, trivial⟩, rfl, rfl,
      by simp [SessionOp.Keeps, LiveOp.Keeps]⟩
  | poolCall name op =>
    obtain ⟨pool, hpool, ha⟩ := hok
    by_cases hcheck : ∃ now probe, op = .runHealthChecks now probe
    · obtain ⟨now, probe, rfl⟩ := hcheck
      obtain ⟨probe', hprobe⟩ := pool.runHealthChecksLive_eq out name now w
      refine ⟨[.poolCall name (.runHealthChecks now probe')],
        ⟨⟨pool, hpool, trivial⟩, trivial⟩, ?_, rfl, by simp [SessionOp.Keeps]⟩
      show px.apply (px.opOf (.poolCall name (.runHealthChecks now probe'))) =
        (checkPool out now (px, w) name).1
      simp only [opOf, Proxy.apply, checkPool, hpool, Option.getD_some, hprobe]
      rfl
    · have hstep : LiveOp.step out (px, w) (.poolCall name op) =
          (px.setPool name (pool.apply op), w) := by
        cases op with
        | runHealthChecks now probe => exact absurd ⟨now, probe, rfl⟩ hcheck
        | _ => simp only [LiveOp.step, hpool]
      refine ⟨[.poolCall name op], ⟨⟨pool, hpool, ha⟩, trivial⟩, ?_, rfl,
        by simp [SessionOp.Keeps]⟩
      rw [hstep]
      show px.apply (px.opOf (.poolCall name op)) = _
      simp only [opOf, Proxy.apply, hpool, Option.getD_some]
  | dispatch name idx req => exact ⟨[], trivial, rfl, rfl, by simp⟩
  | outside w' => exact ⟨[], trivial, rfl, rfl, by simp⟩
  | handle req =>
    obtain ⟨o, replies, w', _, _, heq, _⟩ := handleLive_eq out hp req w
    refine ⟨[.handle (out.nowMillis w) req replies], ⟨trivial, trivial⟩, ?_, ?_,
      by simp [SessionOp.Keeps]⟩
    · show px.apply (px.opOf (.handle (out.nowMillis w) req replies)) = _
      simp only [opOf, Proxy.apply, LiveOp.step, heq]
      cases px.handle (out.nowMillis w) req replies <;> rfl
    · show [_] = [_]
      rw [heq, Option.map_map]
      rfl
  | runHealthChecks order =>
    obtain ⟨probe, heq⟩ := runHealthChecksLive_eq out hok.1
      (fun name hname => (hok.2 name).mpr hname) w
    refine ⟨[.runHealthChecks (out.nowMillis w) probe], ⟨trivial, trivial⟩, ?_, rfl,
      by simp [SessionOp.Keeps]⟩
    exact heq.symm

/-- A proxy on its upstreams is a session.  Whatever the upstreams do with their state,
and whether they share it or not, each call of a run is some calls of a session, in which
each request has one fixed reply for each backend.  After every prefix of the run the
proxy is in the state of the session, and the session has shown the same times and
results.  So what holds of all sessions holds of all such runs. -/
theorem live_refines_session (out : Outside σ) {px : Proxy} (h : px.Reachable) (w : σ)
    {ops : List (LiveOp σ)} (hv : (liveSystem out).Valid (px, w) ops) :
    ∃ sopss : List (List SessionOp), sopss.length = ops.length ∧
      sessionSystem.Valid px sopss.flatten ∧
      (∀ k, sessionSystem.exec px (sopss.take k).flatten =
          ((liveSystem out).exec (px, w) (ops.take k)).1 ∧
        sessionSystem.events seen px (sopss.take k).flatten =
          (liveSystem out).events (LiveOp.seen out) (px, w) (ops.take k)) ∧
      ∀ service, (∀ op ∈ ops, op.Keeps service) → ∀ sop ∈ sopss.flatten, sop.Keeps service := by
  induction ops generalizing px w with
  | nil => exact ⟨[], rfl, trivial, fun k => by simp [System.events], by simp⟩
  | cons op ops ih =>
    obtain ⟨first, hvalid, hexec, hseen, hkeep⟩ := live_step out h hv.1
    have hreach : (op.step out (px, w)).1.Reachable := hexec ▸ reachable_exec h hvalid
    obtain ⟨rest, hlen, hvalid', hruns, hkeep'⟩ := ih hreach (op.step out (px, w)).2 hv.2
    refine ⟨first :: rest, by simp [hlen], ?_, fun k => ?_, fun service hk sop hmem => ?_⟩
    · exact (System.valid_append_iff _ _ _ _).mpr ⟨hvalid, hexec ▸ hvalid'⟩
    · cases k with
      | zero => exact ⟨rfl, rfl⟩
      | succ k =>
        obtain ⟨hexec', hseen'⟩ := hruns k
        rw [List.take_succ_cons, List.take_succ_cons, List.flatten_cons]
        refine ⟨?_, ?_⟩
        · rw [System.exec_append, hexec]
          exact hexec'
        · rw [System.events_append, hseen, hexec, hseen']
          rfl
    · rcases List.mem_append.mp hmem with hmem | hmem
      · exact hkeep service (hk op (by simp)) sop hmem
      · exact hkeep' service (fun o ho => hk o (by simp [ho])) sop hmem

/-- All backends on one upstream that fails every other call, the probes included. -/
def everyOther : Outside Nat := .ofSend (fun _ => 5)
  (fun _ _ _ w => (if w % 2 = 0 then ⟨.error .timeout, 30⟩ else ⟨.ok (.new 200), 3⟩, w + 1))

/-- A health check, and a request that fails over between two backends on one upstream. -/
theorem live_refines_session_one :
    let ops : List (LiveOp Nat) := [.runHealthChecks ["api"], .handle (.new .get "/")]
    ∃ sopss : List (List SessionOp), sopss.length = 2 ∧
      sessionSystem.Valid twoBackends sopss.flatten ∧
      ∀ k, sessionSystem.exec twoBackends (sopss.take k).flatten =
          ((liveSystem everyOther).exec (twoBackends, 0) (ops.take k)).1 := by
  intro ops
  have horder : ∀ name, name ∈ ["api"] ↔ twoBackends.pools name ≠ none := by
    have hpools : twoBackends.pools = Function.update (fun _ => none) "api"
        (some .twoBackends) := rfl
    intro name
    by_cases hn : name = "api" <;> simp [hpools, hn]
  have hv : (liveSystem everyOther).Valid (twoBackends, 0) ops :=
    ⟨⟨by simp, horder⟩, trivial, trivial⟩
  obtain ⟨sopss, hlen, hvalid, hruns, _⟩ :=
    live_refines_session everyOther reachable_twoBackends 0 hv
  exact ⟨sopss, hlen, hvalid, fun k => (hruns k).1⟩

end Proxy

end Echofront
