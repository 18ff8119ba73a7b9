import Echofront.Pool.Quarantine

/-!
# Concurrent calls on a pool

A caller holds the pool for a poll, a selection and a `begin`, and comes back
later, once with the outcome of the call and once to end it, in either order.
`callSystem` is the pool together with the calls that have been begun; between
their steps anything else may happen to the pool.

A call remembers the trial it was begun in and the trial its success was counted
in, for the statements only: the pool has no identity of a call.  A trial is one
Half-Open period of a breaker and is named by the number of trips before it.

`reachable_pool` says that the pool of such a run is a pool of `poolSystem`, and
`callStep` what one step does to one backend and to the calls on it.
-/

namespace Echofront

open Lib

/-- The Half-Open period of a breaker, by the number of its trips. -/
def CircuitBreaker.trial (b : CircuitBreaker) : Option Nat :=
  if b.state = .halfOpen then some b.trips else none

/-- A call that has been begun. -/
structure PoolCall where
  backend : Nat
  /-- The trial that the call was begun in. -/
  begunIn : Option Nat
  recorded : Bool
  /-- The trial that the success of the call was counted in. -/
  succeededIn : Option Nat
  ended : Bool
deriving DecidableEq, Inhabited

/-- The outcome of a call, as the caller records it. -/
inductive CallOutcome where
  | success
  | successLatency (latencyMs : Nat)
  | failure
deriving DecidableEq

/-- The pool operation that records an outcome. -/
def CallOutcome.op (idx now : Nat) : CallOutcome → Op
  | .success => .recordSuccess idx now
  | .successLatency latencyMs => .recordSuccessLatency idx now latencyMs
  | .failure => .recordFailure idx now

/-- One step of the callers of a pool. -/
inductive CallOp where
  /-- `poll`, `select` and, if it returns a backend, `begin`. -/
  | start (now : Nat) (key : Option String) (exclude : List Nat)
  | outcome (id now : Nat) (o : CallOutcome)
  | finish (id : Nat)
  | background (op : Op)

/-- A pool operation that is not part of a call. -/
def Op.isBackground : Op → Bool
  | .addBackend _ | .setStrategy _ | .enableEwma _ | .poll _ | .select _ _ _
  | .runHealthChecks _ _ => true
  | .begin _ | .endCall _ | .recordSuccess _ _ | .recordSuccessLatency _ _ _
  | .recordFailure _ _ => false

/-- A pool and the calls that have been begun on it. -/
structure CallState where
  pool : Pool
  calls : List PoolCall

namespace CallState

def call (s : CallState) (id : Nat) : PoolCall := s.calls.getD id default

/-- The backend that a start selects. -/
def picked (s : CallState) (now : Nat) (key : Option String) (exclude : List Nat) :
    Option Nat :=
  ((s.pool.poll now).select now key exclude).1

/-- The pool operations of a step. -/
def poolOps (s : CallState) : CallOp → List Op
  | .start now key exclude =>
    [.poll now, .select now key exclude] ++ (s.picked now key exclude).toList.map .begin
  | .outcome id now o => [o.op (s.call id).backend now]
  | .finish id => [.endCall (s.call id).backend]
  | .background op => [op]

/-- The trial of backend `idx` after a poll.  An outcome polls the breaker before it
is counted, and a start before it selects. -/
def trialAt (s : CallState) (idx now : Nat) : Option Nat :=
  ((s.pool.backend idx).breaker.poll now).trial

/-- The call that a start begins on backend `idx`. -/
def begunCall (s : CallState) (now idx : Nat) : PoolCall where
  backend := idx
  begunIn := s.trialAt idx now
  recorded := false
  succeededIn := none
  ended := false

/-- The call after its outcome. -/
def recordedCall (s : CallState) (id now : Nat) (o : CallOutcome) : PoolCall :=
  { s.call id with
    recorded := true
    succeededIn := if o = .failure then none else s.trialAt (s.call id).backend now }

/-- The calls after a step. -/
def stepCalls (s : CallState) : CallOp → List PoolCall
  | .start now key exclude =>
    s.calls ++ (s.picked now key exclude).toList.map (s.begunCall now)
  | .outcome id now o => s.calls.set id (s.recordedCall id now o)
  | .finish id => s.calls.set id { s.call id with ended := true }
  | .background _ => s.calls

def step (s : CallState) (a : CallOp) : CallState where
  pool := poolSystem.exec s.pool (s.poolOps a)
  calls := s.stepCalls a

/-- A step that a caller can take: a call is recorded once and ended once. -/
def Accepts (s : CallState) : CallOp → Prop
  | .start _ _ _ => True
  | .outcome id _ _ => id < s.calls.length ∧ (s.call id).recorded = false
  | .finish id => id < s.calls.length ∧ (s.call id).ended = false
  | .background op => op.isBackground = true ∧ s.pool.Accepts op

end CallState

/-- A pool and its callers as a system. -/
def callSystem : System CallState CallOp where
  init s := poolSystem.init s.pool ∧ s.calls = []
  ok := CallState.Accepts
  step := CallState.step

namespace CallState

/-- A state that some steps of callers on a new pool lead to. -/
def Reachable (s : CallState) : Prop := callSystem.Reachable s

/-! ## The pool of a run -/

/-- Every call is one to a backend of the pool. -/
def InRange (s : CallState) : Prop := ∀ c ∈ s.calls, c.backend < s.pool.backends.length

theorem call_mem {s : CallState} {id : Nat} (h : id < s.calls.length) :
    s.call id ∈ s.calls := by
  rw [call, List.getD_eq_getElem?_getD, List.getElem?_eq_getElem h, Option.getD_some]
  exact List.getElem_mem h

theorem length_exec_of_ne {ops : List Op} (h : ∀ op ∈ ops, ∀ b, op ≠ .addBackend b)
    (p : Pool) : (poolSystem.exec p ops).backends.length = p.backends.length := by
  induction ops generalizing p with
  | nil => rfl
  | cons op ops ih =>
    have hop := p.length_apply_of_ne (h op List.mem_cons_self)
    exact (ih (fun o ho => h o (List.mem_cons_of_mem _ ho)) _).trans hop

/-- Only a background step adds a backend. -/
theorem ne_addBackend_of_mem_poolOps {s : CallState} {a : CallOp}
    (h : ∀ op, a ≠ .background op) : ∀ op ∈ s.poolOps a, ∀ b, op ≠ .addBackend b := by
  intro op hop b
  cases a with
  | start now key exclude =>
    rcases List.mem_append.mp hop with hop | hop
    · rcases List.mem_cons.mp hop with rfl | hop
      · simp
      · rw [List.mem_singleton.mp hop]
        simp
    · obtain ⟨j, _, rfl⟩ := List.mem_map.mp hop
      simp
  | outcome id now o =>
    rw [List.mem_singleton.mp hop]
    cases o <;> simp [CallOutcome.op]
  | finish id =>
    rw [List.mem_singleton.mp hop]
    simp
  | background op => exact absurd rfl (h op)

/-- A start selects a backend of the pool that is available after the poll. -/
theorem picked_spec {s : CallState} (h : s.pool.Reachable) {now : Nat} {key : Option String}
    {exclude : List Nat} {i : Nat} (hi : s.picked now key exclude = some i) :
    i < s.pool.backends.length ∧ ((s.pool.poll now).backend i).isAvailable now = true := by
  have hr : (s.pool.poll now).Reachable :=
    System.Reachable.step (M := poolSystem) (a := .poll now) h trivial
  obtain ⟨hlt, _, hav, _⟩ :=
    Pool.mem_candidates.mp (Pool.select_mem (Pool.ringOk_of_reachable hr) hi)
  exact ⟨by simpa [Pool.poll] using hlt, hav⟩

/-- The pool operations of a step are ones that the pool accepts. -/
theorem valid_poolOps {s : CallState} (h : s.pool.Reachable) (hr : s.InRange) {a : CallOp}
    (ha : s.Accepts a) : poolSystem.Valid s.pool (s.poolOps a) := by
  cases a with
  | start now key exclude =>
    cases hi : s.picked now key exclude with
    | none =>
      simp only [poolOps, hi]
      exact ⟨trivial, trivial, trivial⟩
    | some i =>
      simp only [poolOps, hi]
      refine ⟨trivial, trivial, ?_, trivial⟩
      show i < ((s.pool.poll now).select now key exclude).2.backends.length
      rw [((s.pool.poll now).selectFrame_select now key exclude).length]
      simpa [Pool.poll] using (picked_spec h hi).1
  | outcome id now o =>
    have hlt := hr _ (call_mem ha.1)
    cases o <;> exact ⟨hlt, trivial⟩
  | finish id => exact ⟨hr _ (call_mem ha.1), trivial⟩
  | background op => exact ⟨ha.2, trivial⟩

/-- A call after a step is to a backend that was there before it. -/
theorem backend_lt_of_step {s : CallState} (h : s.pool.Reachable) (hr : s.InRange)
    {a : CallOp} (ha : s.Accepts a) :
    ∀ c ∈ (s.step a).calls, c.backend < s.pool.backends.length := by
  intro c hc
  cases a with
  | start now key exclude =>
    rcases List.mem_append.mp hc with hc | hc
    · exact hr c hc
    · obtain ⟨i, hi, rfl⟩ := List.mem_map.mp hc
      exact (picked_spec h (Option.mem_toList.mp hi)).1
  | outcome id now o =>
    rcases List.mem_or_eq_of_mem_set hc with hc | rfl
    · exact hr c hc
    · exact hr (s.call id) (call_mem ha.1)
  | finish id =>
    rcases List.mem_or_eq_of_mem_set hc with hc | rfl
    · exact hr c hc
    · exact hr (s.call id) (call_mem ha.1)
  | background op => exact hr c hc

theorem inRange_step {s : CallState} (h : s.pool.Reachable) (hr : s.InRange) {a : CallOp}
    (ha : s.Accepts a) : (s.step a).InRange := fun c hc =>
  Nat.lt_of_lt_of_le (backend_lt_of_step h hr ha c hc) (Pool.length_le_exec s.pool (s.poolOps a))

/-- The pool of a run of callers is one that a run of pool calls leads to. -/
theorem reachable_pool {s : CallState} (h : s.Reachable) : s.pool.Reachable ∧ s.InRange := by
  refine System.Reachable.invariant (M := callSystem)
    (I := fun s => s.pool.Reachable ∧ s.InRange) ?_ ?_ h
  · intro s₀ h₀
    obtain ⟨hinit, hcalls⟩ := h₀
    exact ⟨⟨s₀.pool, [], hinit, trivial, rfl⟩, by simp [InRange, hcalls]⟩
  · intro s a hs ha
    obtain ⟨hp, hr⟩ := hs
    exact ⟨System.Reachable.exec (M := poolSystem) hp (valid_poolOps hp hr ha),
      inRange_step hp hr ha⟩

/-! ## What one step does to one backend -/

/-- What a step does to backend `i` of the pool and to its calls.

* It begins a call on the backend, which was available after the poll.
* It leaves the calls on the backend, and at most it polls the breaker.
* It records the outcome of a call on the backend.
* It ends a call on the backend. -/
inductive CallStep (s : CallState) (a : CallOp) (i : Nat) : Prop
  | begins {now : Nat} {key : Option String} {exclude : List Nat}
      (ha : a = .start now key exclude) (hp : s.picked now key exclude = some i)
      (hav : ((s.pool.poll now).backend i).isAvailable now = true)
      (hb : ((s.step a).pool.backend i).breaker = (s.pool.backend i).breaker.poll now)
      (hf : ((s.step a).pool.backend i).inFlight = incr32 (s.pool.backend i).inFlight)
      (hcalls : (s.step a).calls = s.calls ++ [s.begunCall now i])
  | other (hb : ((s.step a).pool.backend i).breaker = (s.pool.backend i).breaker ∨
        ∃ now, ((s.step a).pool.backend i).breaker = (s.pool.backend i).breaker.poll now)
      (hf : ((s.step a).pool.backend i).inFlight = (s.pool.backend i).inFlight)
      (hcalls : ∀ P : PoolCall → Bool, (∀ c, P c = true → c.backend = i) →
        (s.step a).calls.countP P = s.calls.countP P)
  | records {id now : Nat} {o : CallOutcome} (hid : id < s.calls.length)
      (hi : (s.call id).backend = i) (hnew : (s.call id).recorded = false)
      (hb : ((s.step a).pool.backend i).breaker =
        if o = .failure then (s.pool.backend i).breaker.onFailure now
        else (s.pool.backend i).breaker.onSuccess now)
      (hf : ((s.step a).pool.backend i).inFlight = (s.pool.backend i).inFlight)
      (hcalls : (s.step a).calls = s.calls.set id (s.recordedCall id now o))
  | ends {id : Nat} (hid : id < s.calls.length) (hi : (s.call id).backend = i)
      (hlive : (s.call id).ended = false)
      (hb : ((s.step a).pool.backend i).breaker = (s.pool.backend i).breaker)
      (hf : ((s.step a).pool.backend i).inFlight = (s.pool.backend i).inFlight - 1)
      (hcalls : (s.step a).calls = s.calls.set id { s.call id with ended := true })

theorem call_eq_getElem {s : CallState} {id : Nat} (h : id < s.calls.length) :
    s.call id = s.calls[id] := by
  rw [call, List.getD_eq_getElem?_getD, List.getElem?_eq_getElem h, Option.getD_some]

/-- A call that is replaced by one on the same backend changes no count of the calls
on another backend. -/
theorem countP_set_of_ne {s : CallState} {id i : Nat} {c : PoolCall}
    (hid : id < s.calls.length) (hc : c.backend = (s.call id).backend)
    (hne : (s.call id).backend ≠ i) {P : PoolCall → Bool}
    (hP : ∀ c, P c = true → c.backend = i) :
    (s.calls.set id c).countP P = s.calls.countP P := by
  have hold : ¬ P s.calls[id] = true := by
    rw [← call_eq_getElem hid]
    exact fun h => hne (hP _ h)
  have hnew : ¬ P c = true := fun h => hne (hc ▸ hP _ h)
  rw [List.countP_set hid, if_neg hold, if_neg hnew]
  rfl

/-- An operation that is not part of a call leaves the calls in flight, and at most
it polls the breaker. -/
theorem effect_background {p : Pool} {op : Op} (h : op.isBackground = true) (i : Nat)
    (b : Backend) :
    (p.effect op i b).inFlight = b.inFlight ∧
      ((p.effect op i b).breaker = b.breaker ∨
        ∃ now, (p.effect op i b).breaker = b.breaker.poll now) := by
  have hstep := p.effectStep op i b
  generalize p.effect op i b = b' at hstep ⊢
  cases hstep with
  | polled now =>
    exact ⟨Backend.poll_inFlight _ _ _ _, Or.inr ⟨now, Backend.poll_breaker _ _ _ _⟩⟩
  | weighed now key exclude w => exact ⟨rfl, Or.inl rfl⟩
  | probed now probe => exact ⟨rfl, Or.inl rfl⟩
  | other hpoll hne => exact ⟨rfl, Or.inl rfl⟩
  | _ => exact absurd h (by simp [Op.isBackground])

/-- What a selection keeps of a backend that the pool has polled. -/
theorem backend_select_poll {p : Pool} {i : Nat} (hi : i < p.backends.length) (now : Nat)
    (key : Option String) (exclude : List Nat) :
    (((p.poll now).select now key exclude).2.backend i).breaker =
        (p.backend i).breaker.poll now ∧
      (((p.poll now).select now key exclude).2.backend i).inFlight =
        (p.backend i).inFlight := by
  have hpoll : (p.poll now).backend i = (p.backend i).poll p.ewma p.threshold now :=
    Pool.backend_apply_of_lt hi (.poll now)
  rw [((p.poll now).selectFrame_select now key exclude).backend_eq i]
  exact ⟨by simp only [hpoll, Backend.poll_breaker],
    by simp only [hpoll, Backend.poll_inFlight]⟩

/-- A start polls the breaker of every backend, and the one it selects has one call
more in flight. -/
theorem backend_start {s : CallState} {i : Nat} (hi : i < s.pool.backends.length) (now : Nat)
    (key : Option String) (exclude : List Nat) :
    ((s.step (.start now key exclude)).pool.backend i).breaker =
        (s.pool.backend i).breaker.poll now ∧
      ((s.step (.start now key exclude)).pool.backend i).inFlight =
        if s.picked now key exclude = some i then incr32 (s.pool.backend i).inFlight
        else (s.pool.backend i).inFlight := by
  obtain ⟨hbr, hin⟩ := backend_select_poll hi now key exclude
  cases hp : s.picked now key exclude with
  | none =>
    have hpool : (s.step (.start now key exclude)).pool =
        ((s.pool.poll now).select now key exclude).2 := by
      simp only [step, poolOps, hp]
      rfl
    rw [hpool, hbr, hin]
    simp
  | some j =>
    have hpool : (s.step (.start now key exclude)).pool =
        ((s.pool.poll now).select now key exclude).2.begin j := by
      simp only [step, poolOps, hp]
      rfl
    have hlen : i < ((s.pool.poll now).select now key exclude).2.backends.length := by
      rw [((s.pool.poll now).selectFrame_select now key exclude).length]
      simpa [Pool.poll] using hi
    rw [hpool, Pool.begin]
    by_cases hji : j = i
    · subst hji
      rw [Pool.backend_modify_self hlen, if_pos rfl]
      exact ⟨hbr, congrArg incr32 hin⟩
    · rw [Pool.backend_modify_ne hji, hbr, hin, if_neg (by simpa using hji)]
      exact ⟨rfl, rfl⟩

theorem callStep_start {s : CallState} (h : s.pool.Reachable) {i : Nat}
    (hi : i < s.pool.backends.length) (now : Nat) (key : Option String)
    (exclude : List Nat) : CallStep s (.start now key exclude) i := by
  obtain ⟨hb, hf⟩ := backend_start hi now key exclude
  cases hp : s.picked now key exclude with
  | none =>
    refine .other (Or.inr ⟨now, hb⟩) (by simpa [hp] using hf) (fun P _ => ?_)
    simp [step, stepCalls, hp]
  | some j =>
    have hcalls : (s.step (.start now key exclude)).calls =
        s.calls ++ [s.begunCall now j] := by
      simp [step, stepCalls, hp]
    rw [hp] at hf
    by_cases hji : j = i
    · subst hji
      rw [if_pos rfl] at hf
      exact .begins rfl hp (picked_spec h hp).2 hb hf hcalls
    · rw [if_neg (by simpa using hji)] at hf
      refine .other (Or.inr ⟨now, hb⟩) hf (fun P hP => ?_)
      have hno : P (s.begunCall now j) = false :=
        Bool.eq_false_iff.mpr (fun hc => hji (hP _ hc))
      simp [hcalls, hno]

theorem callStep_outcome {s : CallState} {i : Nat} (hi : i < s.pool.backends.length)
    {id now : Nat} {o : CallOutcome} (ha : s.Accepts (.outcome id now o)) :
    CallStep s (.outcome id now o) i := by
  obtain ⟨hid, hnew⟩ := ha
  have hback : (s.step (.outcome id now o)).pool.backend i =
      s.pool.effect (o.op (s.call id).backend now) i (s.pool.backend i) :=
    Pool.backend_apply_of_lt hi _
  by_cases hidx : (s.call id).backend = i
  · refine .records hid hidx hnew ?_ ?_ rfl
    · rw [hback]
      cases o with
      | success => simp only [CallOutcome.op, Pool.effect, if_pos hidx]; rfl
      | successLatency latencyMs =>
        simp only [CallOutcome.op, Pool.effect, if_pos hidx, Backend.recordSuccessLatency_eq]
        rfl
      | failure =>
        simp only [CallOutcome.op, Pool.effect, if_pos hidx, Backend.recordFailure_eq]
        rfl
    · rw [hback]
      cases o with
      | success => simp only [CallOutcome.op, Pool.effect, if_pos hidx]; rfl
      | successLatency latencyMs =>
        simp only [CallOutcome.op, Pool.effect, if_pos hidx, Backend.recordSuccessLatency_eq]
      | failure =>
        simp only [CallOutcome.op, Pool.effect, if_pos hidx, Backend.recordFailure_eq]
  · have hsame : (s.step (.outcome id now o)).pool.backend i = s.pool.backend i := by
      rw [hback]
      cases o <;> simp only [CallOutcome.op, Pool.effect, if_neg hidx]
    have hback' : (s.recordedCall id now o).backend = (s.call id).backend := rfl
    exact .other (Or.inl (by rw [hsame])) (by rw [hsame])
      (fun P hP => countP_set_of_ne hid hback' hidx hP)

theorem callStep_finish {s : CallState} {i : Nat} (hi : i < s.pool.backends.length)
    {id : Nat} (ha : s.Accepts (.finish id)) : CallStep s (.finish id) i := by
  obtain ⟨hid, hlive⟩ := ha
  have hback : (s.step (.finish id)).pool.backend i =
      s.pool.effect (.endCall (s.call id).backend) i (s.pool.backend i) :=
    Pool.backend_apply_of_lt hi (.endCall (s.call id).backend)
  by_cases hidx : (s.call id).backend = i
  · have hend : (s.step (.finish id)).pool.backend i = (s.pool.backend i).endCall := by
      rw [hback]
      simp only [Pool.effect, if_pos hidx]
    exact .ends hid hidx hlive (by rw [hend]; rfl) (by rw [hend]; rfl) rfl
  · have hsame : (s.step (.finish id)).pool.backend i = s.pool.backend i := by
      rw [hback]
      simp only [Pool.effect, if_neg hidx]
    have hback' : { s.call id with ended := true }.backend = (s.call id).backend := rfl
    exact .other (Or.inl (by rw [hsame])) (by rw [hsame])
      (fun P hP => countP_set_of_ne hid hback' hidx hP)

/-- The step lemma. -/
theorem callStep {s : CallState} (h : s.pool.Reachable) {a : CallOp} (ha : s.Accepts a)
    {i : Nat} (hi : i < s.pool.backends.length) : CallStep s a i := by
  cases a with
  | start now key exclude => exact callStep_start h hi now key exclude
  | outcome id now o => exact callStep_outcome hi ha
  | finish id => exact callStep_finish hi ha
  | background op =>
    have hback : (s.step (.background op)).pool.backend i =
        s.pool.effect op i (s.pool.backend i) := Pool.backend_apply_of_lt hi op
    obtain ⟨hf, hb⟩ := effect_background (p := s.pool) ha.1 i (s.pool.backend i)
    rw [← hback] at hf hb
    exact .other hb hf (fun _ _ => rfl)

end CallState

end Echofront
