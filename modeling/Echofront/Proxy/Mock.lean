import Echofront.Proxy.Live

/-!
# The proxy on scripted upstreams

With a mock for each backend the world of a proxy is a set of queues.  Every attempt of
every request takes one step off the queue of its backend and shows it: the result of the
attempt, its text and its latency are those of the step.

`Played` is what `n` calls of `send` do to a mock, whatever probes come in between.
`script_played` is the result for runs: the `k`-th attempt on a backend, over all requests
of the run, plays step `k` of its script, and nothing else takes a step.
-/

namespace Echofront

open Lib

/-! ## The queue of a mock -/

/-- The text of a reply in an attempt. -/
def UpstreamReply.detail (r : UpstreamReply) : String :=
  match r.outcome with
  | .ok resp => toString resp.status
  | .error e => e.toText

namespace MockUpstream

/-- The step that the call number `k` plays. -/
def stepAt (m : MockUpstream) (k : Nat) : Step := m.script.getD k m.default

/-- `m'` is `m` after `n` calls of `send`, up to the probes. -/
structure Played (m : MockUpstream) (n : Nat) (m' : MockUpstream) : Prop where
  name : m'.name = m.name
  default : m'.default = m.default
  script : m'.script = m.script.drop n
  calls : m'.calls = m.calls + n

theorem Played.refl (m : MockUpstream) : Played m 0 m := ⟨rfl, rfl, rfl, rfl⟩

theorem Played.trans {m₀ m₁ m₂ : MockUpstream} {n k : Nat} (h : Played m₀ n m₁)
    (h' : Played m₁ k m₂) : Played m₀ (n + k) m₂ where
  name := h'.name.trans h.name
  default := h'.default.trans h.default
  script := by rw [h'.script, h.script, List.drop_drop]
  calls := by rw [h'.calls, h.calls, Nat.add_assoc]

/-- The steps that are left come after the steps that have been played. -/
theorem Played.stepAt {m m' : MockUpstream} {n : Nat} (h : Played m n m') (k : Nat) :
    m'.stepAt k = m.stepAt (n + k) := by
  simp only [MockUpstream.stepAt, h.script, h.default, List.getD_eq_getElem?_getD,
    List.getElem?_drop]

theorem send_fst (m : MockUpstream) (req : Request) :
    (m.send req).1 = (m.stepAt 0).reply m.name := by
  cases hs : m.script <;> simp [send, nextStep, MockUpstream.stepAt, hs]

theorem played_send (m : MockUpstream) (req : Request) : Played m 1 (m.send req).2 := by
  cases hs : m.script <;> simp only [send, nextStep, hs] <;> exact ⟨rfl, rfl, by simp [hs], rfl⟩

theorem played_probe (m : MockUpstream) : Played m 0 m.probe.2 := by
  cases hs : m.probes <;> simp only [probe, hs] <;> exact ⟨rfl, rfl, rfl, rfl⟩

end MockUpstream

namespace Mocks

open MockUpstream (Played)

/-- Health checks take no step of a script. -/
theorem played_probeLoop (service : String) (health : HealthConfig) (now i : Nat)
    (bs : List Backend) (w : Mocks) (name : String) (j : Nat) :
    Played (w.mock name j) 0
      ((Pool.probeLoop outside service health now i bs w).2.mock name j) := by
  induction bs generalizing i w with
  | nil => exact .refl _
  | cons b bs ih =>
    by_cases hdue : b.probeDue health now = true
    · have hrest := ih (i + 1) (outside.probe service i w).2
      have hprobe : Played (w.mock name j) 0 ((outside.probe service i w).2.mock name j) := by
        by_cases hij : name = service ∧ j = i
        · obtain ⟨rfl, rfl⟩ := hij
          simpa [outside, setMock] using (w.mock name j).played_probe
        · simpa [outside, setMock, hij] using Played.refl (w.mock name j)
      simp only [Pool.probeLoop, if_pos hdue]
      exact hprobe.trans hrest
    · simp only [Pool.probeLoop, if_neg hdue]
      exact ih (i + 1) w

theorem played_checkPool (now : Nat) (s : Proxy × Mocks) (service name : String) (j : Nat) :
    Played (s.2.mock name j) 0 ((Proxy.checkPool outside now s service).2.mock name j) := by
  unfold Proxy.checkPool
  cases s.1.pools service with
  | none => exact .refl _
  | some pool => exact played_probeLoop service pool.health now 0 pool.backends s.2 name j

theorem played_runHealthChecks (order : List String) (px : Proxy) (w : Mocks) (name : String)
    (j : Nat) :
    Played (w.mock name j) 0 ((px.runHealthChecksLive outside order w).2.mock name j) := by
  have hfold : ∀ (now : Nat) (order : List String) (s : Proxy × Mocks),
      Played (s.2.mock name j) 0
        ((order.foldl (Proxy.checkPool outside now) s).2.mock name j) := by
    intro now order
    induction order with
    | nil => exact fun s => .refl _
    | cons service order ih =>
      exact fun s => (played_checkPool now s service name j).trans (ih _)
  exact hfold (outside.nowMillis w) order (px, w)

/-- Each backend that is asked plays one step of its mock, and no other mock moves. -/
theorem sends_mocks {o : Outgoing} {replies : Nat → UpstreamReply} {w w' : Mocks}
    {is : List Nat} (h : HandleLoop.Sends outside o replies w is w') (hnd : is.Nodup)
    (name : String) (j : Nat) :
    (name = o.service ∧ j ∈ is ∧ replies j = ((w.mock name j).send o.req).1 ∧
      w'.mock name j = ((w.mock name j).send o.req).2) ∨
    (¬ (name = o.service ∧ j ∈ is) ∧ w'.mock name j = w.mock name j) := by
  induction h with
  | nil w => exact Or.inr ⟨by simp, rfl⟩
  | @cons w w' i is hreply _ ih =>
    obtain ⟨hnew, hrest⟩ := List.nodup_cons.mp hnd
    by_cases hij : name = o.service ∧ j = i
    · obtain ⟨rfl, rfl⟩ := hij
      rcases ih hrest with ⟨_, hmem, _, _⟩ | ⟨_, hsame⟩
      · exact absurd hmem hnew
      · refine Or.inl ⟨rfl, by simp, hreply.symm, hsame.trans ?_⟩
        simp [outside, setMock]
    · have hfirst : (outside.send o.service i o.req w).2.mock name j = w.mock name j := by
        simp [outside, setMock, hij]
      rw [hfirst] at ih
      rcases ih hrest with ⟨hname, hmem, hr, hm⟩ | ⟨hnot, hsame⟩
      · exact Or.inl ⟨hname, by simp [hmem], hr, hm⟩
      · refine Or.inr ⟨fun hin => ?_, hsame⟩
        rcases List.mem_cons.mp hin.2 with rfl | hmem
        · exact hij ⟨hin.1, rfl⟩
        · exact hnot ⟨hin.1, hmem⟩

end Mocks

/-! ## What an attempt shows -/

/-- The entry of an attempt shows a reply. -/
structure Attempt.Shows (a : Attempt) (r : UpstreamReply) : Prop where
  ok : a.ok = r.isOk
  detail : a.detail = r.detail
  latencyMs : a.latencyMs = r.latencyMs

namespace HandleLoop

variable {c : Call} {s s' : HandleLoop}

theorem shows_append {idx : Nat} {a : Attempt}
    (hs : ∀ b ∈ s.attempts, b.Shows (c.replies b.backend))
    (hidx : a.backend = idx) (ha : a.Shows (c.replies idx)) :
    ∀ b ∈ s.attempts ++ [a], b.Shows (c.replies b.backend) := by
  refine List.forall_mem_append.mpr ⟨hs, List.forall_mem_singleton.mpr ?_⟩
  rw [hidx]
  exact ha

/-- Every attempt of the loop shows the reply of its backend. -/
theorem loop_shows {fuel : Nat} {response : Except ProxyError Response}
    (hs : ∀ a ∈ s.attempts, a.Shows (c.replies a.backend))
    (hl : loop c fuel s = some (response, s')) :
    ∀ a ∈ s'.attempts, a.Shows (c.replies a.backend) := by
  induction fuel generalizing s with
  | zero => simp [loop] at hl
  | succ fuel ih =>
    rw [loop] at hl
    cases hsel : (s.pool.select c.now c.key s.tried).1 with
    | none =>
      rw [turn_of_none hsel] at hl
      obtain ⟨_, rfl⟩ := Prod.mk.inj (Option.some.inj hl)
      exact hs
    | some idx =>
      rcases turn_of_select hsel with ⟨resp, hreply, hturn⟩ | ⟨e, hreply, hturn⟩
      · rw [hturn] at hl
        obtain ⟨_, rfl⟩ := Prod.mk.inj (Option.some.inj hl)
        have ha : Attempt.Shows ((asking c s idx).attempt idx true (toString resp.status)
            (c.replies idx).latencyMs) (c.replies idx) :=
          ⟨by simp [attempt, UpstreamReply.isOk, hreply],
            by simp [attempt, UpstreamReply.detail, hreply], rfl⟩
        exact shows_append hs rfl ha
      · have ha : Attempt.Shows ((asking c s idx).attempt idx false e.toText
            (c.replies idx).latencyMs) (c.replies idx) :=
          ⟨by simp [attempt, UpstreamReply.isOk, hreply],
            by simp [attempt, UpstreamReply.detail, hreply], rfl⟩
        have hfail := shows_append hs rfl ha
        have hlocals := (retry_locals ((asking c s idx).fail c.now idx e
          (c.replies idx).latencyMs) c.maxRetries).2
        rw [← hturn] at hlocals
        cases ht : s.turn c with
        | finished response' s₁ =>
          rw [ht] at hl hlocals
          obtain ⟨_, rfl⟩ := Prod.mk.inj (Option.some.inj hl)
          have hlocals : s₁.attempts = _ := hlocals
          rw [hlocals]
          exact hfail
        | again s₁ =>
          rw [ht] at hl hlocals
          have hlocals : s₁.attempts = _ := hlocals
          exact ih (by rw [hlocals]; exact hfail) hl

end HandleLoop

namespace MockUpstream

/-- The attempts of `log` show the next steps of `m`, in their order, and `m'` is `m`
after them. -/
structure Plays (m : MockUpstream) (log : List Attempt) (m' : MockUpstream) : Prop where
  played : Played m log.length m'
  shows : ∀ (k : Nat) (a : Attempt), log[k]? = some a → a.Shows ((m.stepAt k).reply m.name)

theorem plays_nil {m m' : MockUpstream} (h : Played m 0 m') : Plays m [] m' :=
  ⟨h, fun k a ha => absurd ha (by simp)⟩

theorem Plays.append {m₀ m₁ m₂ : MockUpstream} {as bs : List Attempt} (h : Plays m₀ as m₁)
    (h' : Plays m₁ bs m₂) : Plays m₀ (as ++ bs) m₂ := by
  refine ⟨by rw [List.length_append]; exact h.played.trans h'.played, fun k a ha => ?_⟩
  by_cases hk : k < as.length
  · rw [List.getElem?_append_left hk] at ha
    exact h.shows k a ha
  · have hle := Nat.le_of_not_lt hk
    rw [List.getElem?_append_right hle] at ha
    have hshows := h'.shows _ a ha
    rwa [h.played.stepAt, h.played.name, Nat.add_sub_cancel' hle] at hshows

end MockUpstream

namespace Proxy

open MockUpstream (Played Plays)

theorem nodup_attempts {px px' : Proxy} (h : PoolsOk px) {now : Nat} {req : Request}
    {replies : Nat → UpstreamReply} {r : HandleResult}
    (heq : px.handle now req replies = some (r, px')) :
    (r.attempts.map Attempt.backend).Nodup := by
  rcases handle_cases h now req replies with
    ⟨_, heq'⟩ | ⟨service, _, _, heq'⟩ | ⟨service, pool, response, s₁, s, hh, heq'⟩
  · obtain ⟨rfl, _⟩ := Prod.mk.inj (Option.some.inj (heq.symm.trans heq'))
    exact List.nodup_nil
  · obtain ⟨rfl, _⟩ := Prod.mk.inj (Option.some.inj (heq.symm.trans heq'))
    exact List.nodup_nil
  · obtain ⟨rfl, _⟩ := Prod.mk.inj (Option.some.inj (heq.symm.trans heq'))
    exact (hh.last.traced hh.looped).nodup

/-- Every attempt of a request shows the reply of its backend. -/
theorem handle_shows {px px' : Proxy} {now : Nat} {req : Request}
    {replies : Nat → UpstreamReply} {r : HandleResult}
    (heq : px.handle now req replies = some (r, px')) :
    ∀ a ∈ r.attempts, a.Shows (replies a.backend) := by
  have hrouter : px.arrive.router = px.router := rfl
  have hpools : px.arrive.pools = px.pools := rfl
  cases hroute : px.router.route req with
  | none =>
    simp only [handle, hrouter, hroute] at heq
    obtain ⟨rfl, _⟩ := Prod.mk.inj (Option.some.inj heq)
    exact fun a ha => absurd ha (by simp [unrouted])
  | some service =>
    cases hpool : px.pools service with
    | none =>
      simp only [handle, hrouter, hroute, hpools, hpool] at heq
      obtain ⟨rfl, _⟩ := Prod.mk.inj (Option.some.inj heq)
      exact fun a ha => absurd ha (by simp [unrouted])
    | some pool =>
      rw [handle_eq_loop hroute hpool] at heq
      obtain ⟨⟨response, s⟩, hloop, hpair⟩ := Option.map_eq_some_iff.mp heq
      obtain ⟨rfl, _⟩ := Prod.mk.inj hpair
      exact HandleLoop.loop_shows (fun a ha => absurd ha (by simp [start])) hloop

/-- The attempts of a call on backend `i` of `service`. -/
def attemptsOn (service : String) (i : Nat) (s : Proxy × Mocks) : LiveOp Mocks → List Attempt
  | .handle req =>
    if s.1.router.route req = some service then
      match s.1.handleLive Mocks.outside req s.2 with
      | none => []
      | some (r, _) => r.attempts.filter (fun a => a.backend == i)
    else []
  | _ => []

/-- The call leaves the mock of backend `i` of `service` to the requests.  It puts no other
pool in the place of `service`, whose mocks would go with it, does not dispatch to the
backend directly, and does not move its mock from outside. -/
def LeavesMock (service : String) (i : Nat) (s : Proxy × Mocks) : LiveOp Mocks → Prop
  | .addPool pool w => pool.name ≠ service ∧ w.mock service i = s.2.mock service i
  | .dispatch name idx _ => ¬ (name = service ∧ idx = i)
  | .outside w => w.mock service i = s.2.mock service i
  | _ => True

/-- Of attempts on distinct backends at most one is on backend `i`. -/
theorem filter_backend {as : List Attempt} {i : Nat} (hnd : (as.map Attempt.backend).Nodup)
    (hi : i ∈ as.map Attempt.backend) :
    ∃ a ∈ as, a.backend = i ∧ as.filter (fun a => a.backend == i) = [a] := by
  induction as with
  | nil => exact absurd hi (by simp)
  | cons a as ih =>
    rw [List.map_cons, List.nodup_cons] at hnd
    by_cases ha : a.backend = i
    · have hrest : as.filter (fun a => a.backend == i) = [] := by
        refine List.filter_eq_nil_iff.mpr (fun b hb hbi => hnd.1 ?_)
        rw [ha, ← beq_iff_eq.mp hbi]
        exact List.mem_map_of_mem hb
      exact ⟨a, by simp, ha, by simp [ha, hrest]⟩
    · have hmem : i ∈ as.map Attempt.backend := by
        rcases List.mem_cons.mp hi with he | hmem
        · exact absurd he.symm ha
        · exact hmem
      obtain ⟨b, hb, hbi, hfilter⟩ := ih hnd.2 hmem
      exact ⟨b, by simp [hb], hbi, by simp [ha, hfilter]⟩

/-- A request plays a step of each backend that it asks. -/
theorem plays_handle {px : Proxy} (h : PoolsOk px) (w : Mocks) (req : Request)
    (service : String) (i : Nat) :
    Plays (w.mock service i) (attemptsOn service i (px, w) (.handle req))
      ((LiveOp.step Mocks.outside (px, w) (.handle req)).2.mock service i) := by
  obtain ⟨o, replies, w', hreq, hservice, hlive, hsends⟩ :=
    handleLive_eq Mocks.outside h req w
  cases heq : px.handle (Mocks.outside.nowMillis w) req replies with
  | none =>
    have hnone : px.handleLive Mocks.outside req w = none := by rw [hlive, heq]; rfl
    simp only [attemptsOn, LiveOp.step, hnone, ite_self]
    exact MockUpstream.plays_nil (.refl _)
  | some result =>
    obtain ⟨r, px'⟩ := result
    have hsome : px.handleLive Mocks.outside req w = some (r, px', w') := by
      rw [hlive, heq]
      rfl
    have hnd := nodup_attempts h heq
    have hstep : (LiveOp.step Mocks.outside (px, w) (.handle req)).2 = w' := by
      simp only [LiveOp.step, hsome]
      rfl
    rw [hstep]
    have hlog : attemptsOn service i (px, w) (.handle req) =
        if px.router.route req = some service then
          r.attempts.filter (fun a => a.backend == i) else [] := by
      simp only [attemptsOn, hsome]
    rw [hlog]
    rcases Mocks.sends_mocks (hsends _ heq) hnd service i with
      ⟨hname, hmem, hreply, hmock⟩ | ⟨hnot, hsame⟩
    · -- the backend has one attempt, and it plays the step at the front
      have hroute : px.router.route req = some service := by
        cases hr : px.router.route req with
        | none =>
          have hrouter : px.arrive.router = px.router := rfl
          simp only [handle, hrouter, hr] at heq
          obtain ⟨rfl, _⟩ := Prod.mk.inj (Option.some.inj heq)
          exact absurd hmem (by simp [unrouted])
        | some s => rw [hname, hservice s hr]
      obtain ⟨a, ha, hai, hfilter⟩ := filter_backend hnd hmem
      rw [if_pos hroute, hfilter, hmock]
      refine ⟨(w.mock service i).played_send o.req, fun k b hb => ?_⟩
      have hshows := handle_shows heq a ha
      rw [hai, hreply, MockUpstream.send_fst] at hshows
      cases k with
      | zero => exact Option.some.inj hb ▸ hshows
      | succ k => exact absurd hb (by simp)
    · -- it has none
      have hnil : (if px.router.route req = some service then
          r.attempts.filter (fun a => a.backend == i) else []) = [] := by
        by_cases hroute : px.router.route req = some service
        · rw [if_pos hroute]
          refine List.filter_eq_nil_iff.mpr (fun a ha hai => hnot ⟨(hservice _ hroute).symm, ?_⟩)
          rw [← beq_iff_eq.mp hai]
          exact List.mem_map_of_mem ha
        · rw [if_neg hroute]
      rw [hnil, hsame]
      exact MockUpstream.plays_nil (.refl _)

/-- The step lemma. -/
theorem plays_step {px : Proxy} (h : px.Reachable) {w : Mocks} {op : LiveOp Mocks}
    {service : String} {i : Nat} (hmock : LeavesMock service i (px, w) op) :
    Plays (w.mock service i) (attemptsOn service i (px, w) op)
      ((op.step Mocks.outside (px, w)).2.mock service i) := by
  cases op with
  | handle req => exact plays_handle (poolsOk_of_reachable h) w req service i
  | setStickyHeader header => exact MockUpstream.plays_nil (.refl _)
  | addPool pool w' =>
    refine MockUpstream.plays_nil ?_
    have hsame : w'.mock service i = w.mock service i := hmock.2
    show Played _ 0 (w'.mock service i)
    rw [hsame]
    exact .refl _
  | poolCall name op =>
    refine MockUpstream.plays_nil ?_
    by_cases hcheck : ∃ now probe, op = .runHealthChecks now probe
    · obtain ⟨now, probe, rfl⟩ := hcheck
      exact Mocks.played_checkPool now (px, w) name service i
    · have hworld : (LiveOp.step Mocks.outside (px, w) (.poolCall name op)).2 = w := by
        cases op with
        | runHealthChecks now probe => exact absurd ⟨now, probe, rfl⟩ hcheck
        | _ =>
          simp only [LiveOp.step]
          cases px.pools name <;> rfl
      rw [hworld]
      exact .refl _
  | dispatch name idx req =>
    refine MockUpstream.plays_nil ?_
    have hne : ¬ (service = name ∧ i = idx) := fun he => hmock ⟨he.1.symm, he.2.symm⟩
    have hsame : (LiveOp.step Mocks.outside (px, w) (.dispatch name idx req)).2.mock service i =
        w.mock service i := by
      simp [LiveOp.step, Mocks.outside, Mocks.setMock, hne]
    rw [hsame]
    exact .refl _
  | runHealthChecks order =>
    exact MockUpstream.plays_nil (Mocks.played_runHealthChecks order px w service i)
  | outside w' =>
    refine MockUpstream.plays_nil ?_
    have hsame : w'.mock service i = w.mock service i := hmock
    show Played _ 0 (w'.mock service i)
    rw [hsame]
    exact .refl _

/-- The script of a mock is played once.  In every run on mocks that leaves the mock of a
backend to the requests, the attempts on the backend over all requests show the steps of
its script one after the other, each step once, and the default step when the script has
come to its end; no request, failover or health check takes a step for nothing or shows one
twice. -/
theorem script_played {px : Proxy} (h : px.Reachable) {w : Mocks} {ops : List (LiveOp Mocks)}
    (hv : (liveSystem Mocks.outside).Valid (px, w) ops) {service : String} {i : Nat}
    (hmock : (liveSystem Mocks.outside).Always (LeavesMock service i) (px, w) ops) :
    let m := w.mock service i
    let m' := ((liveSystem Mocks.outside).exec (px, w) ops).2.mock service i
    let log := (liveSystem Mocks.outside).calls (attemptsOn service i) (px, w) ops
    (∀ (k : Nat) (a : Attempt), log[k]? = some a →
      a.Shows (Step.reply m.name (m.script.getD k m.default))) ∧
      m'.script = m.script.drop log.length ∧ m'.calls = m.calls + log.length := by
  have hplays : Plays (w.mock service i)
      ((liveSystem Mocks.outside).calls (attemptsOn service i) (px, w) ops)
      (((liveSystem Mocks.outside).exec (px, w) ops).2.mock service i) := by
    induction ops generalizing px w with
    | nil => exact MockUpstream.plays_nil (.refl _)
    | cons op ops ih =>
      obtain ⟨first, hvalid, hexec, _⟩ := live_step Mocks.outside h hv.1
      have hreach : (op.step Mocks.outside (px, w)).1.Reachable :=
        hexec ▸ reachable_exec h hvalid
      exact (plays_step h hmock.1).append (ih hreach hv.2 hmock.2)
  exact ⟨hplays.shows, hplays.played.script, hplays.played.calls⟩

/-- Two mocks, of which the first fails its first call. -/
def failsOnce : Mocks where
  now := 10
  mock _ i := if i = 0 then (MockUpstream.new "a").pushMany [.fail .timeout, .ok 201]
    else .new "b"

/-- Two requests. -/
theorem script_played_two :
    let ops : List (LiveOp Mocks) := [.handle (.new .get "/"), .handle (.new .get "/")]
    let log := (liveSystem Mocks.outside).calls (attemptsOn "api" 0) (twoBackends, failsOnce) ops
    (((liveSystem Mocks.outside).exec (twoBackends, failsOnce) ops).2.mock "api" 0).script =
      (failsOnce.mock "api" 0).script.drop log.length := by
  intro ops log
  have hv : (liveSystem Mocks.outside).Valid (twoBackends, failsOnce) ops :=
    ⟨trivial, trivial, trivial⟩
  have hmock : (liveSystem Mocks.outside).Always (LeavesMock "api" 0)
      (twoBackends, failsOnce) ops := ⟨trivial, trivial, trivial⟩
  exact (script_played reachable_twoBackends hv hmock).2.1

end Proxy

end Echofront
