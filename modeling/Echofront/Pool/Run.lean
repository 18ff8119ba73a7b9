import Echofront.Pool.Select
import Echofront.Lib.Run

/-!
# Runs of pool operations

`Op` is one call on a pool, with everything the call reads from outside: its
time, its key, and the replies of the upstreams it probes.  `poolSystem` is the
pool as a system over these calls.

`Pool.effect` says what a call does to one backend, and `getElem?_apply` that it
does exactly that.  `EffectStep` is the effect by the fields that it writes, so that a
step lemma about a backend looks at the calls that write its fields.
`ringOk_of_reachable` is the invariant of the cached ring.

`select_sound_complete` is the contract of a selection after a poll.
-/

namespace Echofront

open Lib

/-- One call on a pool. -/
inductive Op where
  | addBackend (b : Backend)
  | setStrategy (s : Strategy)
  | enableEwma (cfg : EwmaConfig)
  | poll (now : Nat)
  | select (now : Nat) (key : Option String) (exclude : List Nat)
  | begin (idx : Nat)
  | endCall (idx : Nat)
  | recordSuccess (idx now : Nat)
  | recordSuccessLatency (idx now latencyMs : Nat)
  | recordFailure (idx now : Nat)
  | runHealthChecks (now : Nat) (probe : Nat → Bool)

/-- The time a call is made at, if it takes one. -/
def Op.time : Op → Option Nat
  | .poll now | .select now _ _ | .recordSuccess _ now
  | .recordSuccessLatency _ now _ | .recordFailure _ now
  | .runHealthChecks now _ => some now
  | .addBackend _ | .setStrategy _ | .enableEwma _ | .begin _ | .endCall _ => none

/-- The time of a poll. -/
def Op.pollTime : Op → Option Nat
  | .poll now => some now
  | _ => none

/-- The backend that a call names. -/
def Op.backend : Op → Option Nat
  | .begin idx | .endCall idx | .recordSuccess idx _ | .recordSuccessLatency idx _ _
  | .recordFailure idx _ => some idx
  | _ => none

theorem Op.eq_poll_of_pollTime {op : Op} {now : Nat} (h : op.pollTime = some now) :
    op = .poll now := by
  cases op with
  | poll t => rw [Option.some.inj h]
  | _ => exact absurd h (by simp [pollTime])

namespace Pool

def apply (p : Pool) : Op → Pool
  | .addBackend b => p.addBackend b
  | .setStrategy s => p.setStrategy s
  | .enableEwma cfg => p.enableEwma cfg
  | .poll now => p.poll now
  | .select now key exclude => (p.select now key exclude).2
  | .begin idx => p.begin idx
  | .endCall idx => p.endCall idx
  | .recordSuccess idx now => p.recordSuccess idx now
  | .recordSuccessLatency idx now latencyMs => p.recordSuccessLatency idx now latencyMs
  | .recordFailure idx now => p.recordFailure idx now
  | .runHealthChecks now probe => p.runHealthChecks now probe

/-- A call the source can make: an added backend is new, and an index is in
range. -/
def Accepts (p : Pool) : Op → Prop
  | .addBackend b => b.Fresh
  | .begin idx | .endCall idx | .recordSuccess idx _
  | .recordSuccessLatency idx _ _ | .recordFailure idx _ => idx < p.backends.length
  | .setStrategy _ | .enableEwma _ | .poll _ | .select _ _ _
  | .runHealthChecks _ _ => True

end Pool

/-- The pool as a system over its calls. -/
def poolSystem : System Pool Op where
  init p := ∃ name strategy health, p = .new name strategy health
  ok := Pool.Accepts
  step := Pool.apply

namespace Pool

/-- A state that some calls on a new pool lead to. -/
def Reachable (p : Pool) : Prop := poolSystem.Reachable p

/-- The last call of a run. -/
theorem exec_concat (p : Pool) (ops : List Op) (op : Op) :
    poolSystem.exec p (ops ++ [op]) = (poolSystem.exec p ops).apply op :=
  System.exec_append _ p ops [op]

/-! ## The effect on one backend -/

/-- What a call does to backend `i`, if it was there before the call. -/
def effect (p : Pool) (op : Op) (i : Nat) (b : Backend) : Backend :=
  match op with
  | .addBackend _ | .setStrategy _ | .enableEwma _ => b
  | .poll now => b.poll p.ewma p.threshold now
  | .select now key exclude =>
    { b with
      currentWeight := ((p.select now key exclude).2.backend i).currentWeight }
  | .begin idx => if idx = i then b.begin else b
  | .endCall idx => if idx = i then b.endCall else b
  | .recordSuccess idx now => if idx = i then b.recordSuccess now else b
  | .recordSuccessLatency idx now latencyMs =>
    if idx = i then b.recordSuccessLatency p.ewma now latencyMs else b
  | .recordFailure idx now => if idx = i then b.recordFailure p.health now else b
  | .runHealthChecks now probe => b.runHealthCheck p.health now (probe i)

theorem getElem?_modify_of {p : Pool} {i : Nat} {b : Backend}
    (h : p.backends[i]? = some b) (idx : Nat) (f : Backend → Backend) :
    (p.modify idx f).backends[i]? = some (if idx = i then f b else b) := by
  simp only [modify, List.getElem?_modify, h]
  rfl

/-- A call does to a backend what `effect` says. -/
theorem getElem?_apply {p : Pool} {i : Nat} {b : Backend}
    (h : p.backends[i]? = some b) (op : Op) :
    (p.apply op).backends[i]? = some (p.effect op i b) := by
  have hi := lt_length_of_getElem? h
  cases op with
  | addBackend c =>
    simp only [apply, addBackend, effect]
    rw [List.getElem?_append_left hi, h]
  | setStrategy s => exact h
  | enableEwma cfg => exact h
  | poll now => simp [apply, Pool.poll, effect, h]
  | select now key exclude =>
    have hf := p.selectFrame_select now key exclude
    have hq : i < (p.select now key exclude).2.backends.length := by rwa [hf.length]
    rw [apply, getElem?_eq_backend hq, hf.backend_eq i, backend_eq_of_getElem? h]
    rfl
  | begin idx => exact getElem?_modify_of h idx _
  | endCall idx => exact getElem?_modify_of h idx _
  | recordSuccess idx now => exact getElem?_modify_of h idx _
  | recordSuccessLatency idx now latencyMs => exact getElem?_modify_of h idx _
  | recordFailure idx now => exact getElem?_modify_of h idx _
  | runHealthChecks now probe =>
    simp [apply, Pool.runHealthChecks, effect, List.getElem?_mapIdx, h]

/-- Only `add_backend` changes the number of backends. -/
theorem length_apply (p : Pool) (op : Op) :
    (p.apply op).backends.length =
      p.backends.length + match op with
        | .addBackend _ => 1
        | _ => 0 := by
  cases op <;>
    simp [apply, Pool.addBackend, setStrategy, enableEwma, Pool.poll, begin, endCall,
      recordSuccess, recordSuccessLatency, recordFailure, Pool.runHealthChecks,
      (p.selectFrame_select _ _ _).length]

/-- A call names a backend of the pool. -/
theorem backend_ne_of_ge {p : Pool} {op : Op} (hok : p.Accepts op) {i : Nat}
    (hge : p.backends.length ≤ i) : op.backend ≠ some i := by
  intro h
  have hlt : i < p.backends.length := by cases op <;> cases h <;> exact hok
  exact Nat.not_lt_of_le hge hlt

theorem length_apply_of_ne (p : Pool) {op : Op} (h : ∀ b, op ≠ .addBackend b) :
    (p.apply op).backends.length = p.backends.length := by
  rw [length_apply]
  cases op with
  | addBackend b => exact absurd rfl (h b)
  | _ => rfl

/-- A backend after a call was there before it, or was added by it. -/
theorem getElem?_apply_cases {p : Pool} {op : Op} {i : Nat} {b' : Backend}
    (h : (p.apply op).backends[i]? = some b') :
    (∃ b, p.backends[i]? = some b ∧ b' = p.effect op i b) ∨
    (op = .addBackend b' ∧ i = p.backends.length) := by
  by_cases hi : i < p.backends.length
  · have hb := getElem?_eq_backend hi
    rw [getElem?_apply hb op] at h
    exact Or.inl ⟨_, hb, (Option.some.inj h).symm⟩
  · have hlt := lt_length_of_getElem? h
    rw [length_apply] at hlt
    cases op with
    | addBackend c =>
      obtain rfl : i = p.backends.length := by
        simp only at hlt
        omega
      have hc : c = b' := by simpa [apply, Pool.addBackend] using h
      exact Or.inr ⟨by rw [hc], rfl⟩
    | _ => exact absurd hlt hi

/-- What a call does to backend `i`, by the fields that it writes. -/
inductive EffectStep (p : Pool) (i : Nat) (b : Backend) : Op → Backend → Prop
  | polled (now : Nat) : EffectStep p i b (.poll now) (b.poll p.ewma p.threshold now)
  | weighed (now : Nat) (key : Option String) (exclude : List Nat) (w : Int) :
    EffectStep p i b (.select now key exclude) { b with currentWeight := w }
  | begun : EffectStep p i b (.begin i) { b with inFlight := incr32 b.inFlight }
  | ended : EffectStep p i b (.endCall i) { b with inFlight := b.inFlight - 1 }
  | succeeded (now : Nat) :
    EffectStep p i b (.recordSuccess i now)
      { b with
        served := b.served + 1
        outlierFailures := 0
        breaker := b.breaker.onSuccess now }
  | measured (now latencyMs : Nat) :
    EffectStep p i b (.recordSuccessLatency i now latencyMs)
      { b with
        served := b.served + 1
        outlierFailures := 0
        breaker := b.breaker.onSuccess now
        latencyEwmaMilli :=
          match p.ewma with
          | none => b.latencyEwmaMilli
          | some cfg => some (cfg.fold b.latencyEwmaMilli latencyMs)
        ewmaSamples :=
          match p.ewma with
          | none => b.ewmaSamples
          | some _ => incr32 b.ewmaSamples }
  | failed (now : Nat) :
    EffectStep p i b (.recordFailure i now)
      { b with
        served := b.served + 1
        breaker := b.breaker.onFailure now
        outlierFailures := incr32 b.outlierFailures
        ejectedUntil :=
          if b.armsEjection p.health now then
            some (saturatingAdd64 now p.health.ejectionBaseMs)
          else b.ejectedUntil
        ejections :=
          if b.armsEjection p.health now then b.ejections + 1 else b.ejections }
  | probed (now : Nat) (probe : Nat → Bool) :
    EffectStep p i b (.runHealthChecks now probe)
      { b with
        lastProbe := (b.runHealthCheck p.health now (probe i)).lastProbe
        healthy := (b.runHealthCheck p.health now (probe i)).healthy
        probeSuccesses := (b.runHealthCheck p.health now (probe i)).probeSuccesses
        probeFailures := (b.runHealthCheck p.health now (probe i)).probeFailures }
  | other {op : Op} (hpoll : op.pollTime = none) (hne : op.backend ≠ some i) :
    EffectStep p i b op b

/-- The step lemma of one backend. -/
theorem effectStep (p : Pool) (op : Op) (i : Nat) (b : Backend) :
    EffectStep p i b op (p.effect op i b) := by
  -- a call that names another backend
  have hother : ∀ {idx b'}, idx ≠ i → op.pollTime = none → op.backend = some idx →
      EffectStep p i b op (if idx = i then b' else b) := by
    intro idx b' hne hpoll hidx
    rw [if_neg hne]
    exact .other hpoll (by simpa [hidx] using hne)
  cases op with
  | addBackend c => exact .other rfl (by simp [Op.backend])
  | setStrategy strategy => exact .other rfl (by simp [Op.backend])
  | enableEwma cfg => exact .other rfl (by simp [Op.backend])
  | poll now => exact .polled now
  | select now key exclude => exact .weighed now key exclude _
  | begin idx =>
    by_cases hidx : idx = i
    · subst hidx
      rw [effect, if_pos rfl]
      exact .begun
    · exact hother hidx rfl rfl
  | endCall idx =>
    by_cases hidx : idx = i
    · subst hidx
      rw [effect, if_pos rfl]
      exact .ended
    · exact hother hidx rfl rfl
  | recordSuccess idx now =>
    by_cases hidx : idx = i
    · subst hidx
      rw [effect, if_pos rfl]
      exact .succeeded now
    · exact hother hidx rfl rfl
  | recordSuccessLatency idx now latencyMs =>
    by_cases hidx : idx = i
    · subst hidx
      rw [effect, if_pos rfl, Backend.recordSuccessLatency_eq]
      exact .measured now latencyMs
    · exact hother hidx rfl rfl
  | recordFailure idx now =>
    by_cases hidx : idx = i
    · subst hidx
      rw [effect, if_pos rfl, Backend.recordFailure_eq]
      exact .failed now
    · exact hother hidx rfl rfl
  | runHealthChecks now probe =>
    rw [effect, Backend.runHealthCheck_eq]
    exact .probed now probe

/-! ## What no call changes -/

/-- No call changes the name or the weight of a backend, and only a selection its
current weight. -/
theorem effect_fixed (p : Pool) (op : Op) (i : Nat) (b : Backend) :
    (p.effect op i b).name = b.name ∧ (p.effect op i b).weight = b.weight ∧
      ((∀ now key exclude, op ≠ .select now key exclude) →
        (p.effect op i b).currentWeight = b.currentWeight) := by
  have hstep := p.effectStep op i b
  generalize p.effect op i b = b' at hstep ⊢
  cases hstep with
  | polled now =>
    exact ⟨Backend.poll_name _ _ _ _, Backend.poll_weight _ _ _ _,
      fun _ => Backend.poll_currentWeight _ _ _ _⟩
  | weighed now key exclude w => exact ⟨rfl, rfl, fun h => absurd rfl (h now key exclude)⟩
  | _ => exact ⟨rfl, rfl, fun _ => rfl⟩

/-- The breaker of a backend moves by one breaker call at the time of the pool
call, or not at all. -/
theorem effect_breaker_cases (p : Pool) (op : Op) (i : Nat) (b : Backend) :
    (p.effect op i b).breaker = b.breaker ∨
    ∃ e : BreakerEvent, op.time = some e.now ∧
      (p.effect op i b).breaker = b.breaker.apply e := by
  have hstep := p.effectStep op i b
  generalize p.effect op i b = b' at hstep ⊢
  cases hstep with
  | polled now => exact Or.inr ⟨.poll now, rfl, Backend.poll_breaker _ _ _ _⟩
  | succeeded now => exact Or.inr ⟨.onSuccess now, rfl, rfl⟩
  | measured now latencyMs => exact Or.inr ⟨.onSuccess now, rfl, rfl⟩
  | failed now => exact Or.inr ⟨.onFailure now, rfl, rfl⟩
  | _ => exact Or.inl rfl

/-- No call renames a backend of the pool. -/
theorem name_backend_apply (p : Pool) (op : Op) (h : ∀ b, op ≠ .addBackend b) (i : Nat) :
    ((p.apply op).backend i).name = (p.backend i).name := by
  by_cases hi : i < p.backends.length
  · rw [backend_eq_of_getElem? (getElem?_apply (getElem?_eq_backend hi) op)]
    exact (p.effect_fixed op i _).1
  · have hge := Nat.le_of_not_lt hi
    rw [backend_of_ge hge, backend_of_ge (by rw [length_apply_of_ne p h]; exact hge)]

/-! ## The cached ring -/

theorem ringOk_new (name : String) (strategy : Strategy) (health : HealthConfig) :
    RingOk (.new name strategy health) :=
  ⟨by simp [Pool.new, ConsistentHashRing.new], fun h => absurd rfl h⟩

/-- Every call keeps the ring invariant.  `add_backend` clears the signature,
and no other call renames a backend. -/
theorem ringOk_apply {p : Pool} (h : RingOk p) (op : Op) : RingOk (p.apply op) := by
  have hname := p.name_backend_apply op
  cases op with
  | addBackend b => exact ⟨h.vnodes, fun hne => absurd rfl hne⟩
  | select now key exclude => exact ringOk_select h now key exclude
  | _ => exact h.congr rfl rfl (hname (by simp))

theorem ringOk_of_reachable {p : Pool} (h : p.Reachable) : RingOk p := by
  refine System.Reachable.invariant (M := poolSystem) (I := RingOk) ?_
    (fun _ op hp _ => ringOk_apply hp op) h
  intro p₀ h₀
  obtain ⟨name, strategy, health, rfl⟩ := h₀
  exact ringOk_new name strategy health

/-! ## Selection after a poll -/

/-- A backend that a selection may return, condition by condition. -/
structure Selectable (p : Pool) (now : Nat) (exclude : List Nat) (i : Nat) : Prop where
  inRange : i < p.backends.length
  notExcluded : i ∉ exclude
  healthy : (p.backend i).healthy = true
  notEjected : ∀ u, (p.backend i).ejectedUntil = some u → u ≤ now
  breaker : (p.backend i).breaker.state = .closed ∨
    ((p.backend i).breaker.state = .halfOpen ∧
      (p.backend i).inFlight < max 1 (p.backend i).breaker.cfg.halfOpenMaxCalls)
  weight : p.strategy = .weighted → 0 < (p.backend i).weight

theorem isEjected_eq_false_iff (b : Backend) (now : Nat) :
    b.isEjected now = false ↔ ∀ u, b.ejectedUntil = some u → u ≤ now := by
  unfold Backend.isEjected
  cases b.ejectedUntil <;> simp

/-- A poll polls the breaker of every backend. -/
theorem breaker_poll {p : Pool} {now i : Nat} (h : i < (p.poll now).backends.length) :
    ((p.poll now).backend i).breaker = (p.backend i).breaker.poll now := by
  have hi : i < p.backends.length := by simpa [Pool.poll] using h
  have hb := getElem?_apply (getElem?_eq_backend hi) (.poll now)
  have heq : (p.poll now).backend i = p.effect (.poll now) i (p.backend i) :=
    backend_eq_of_getElem? hb
  rw [heq]
  exact Backend.poll_breaker _ _ _ _

/-- After a poll the available backends are those that satisfy the conditions,
since an open breaker is still cooling then. -/
theorem mem_candidates_poll_iff {p : Pool} {now : Nat} {exclude : List Nat} {i : Nat} :
    i ∈ (p.poll now).candidates now exclude ↔ Selectable (p.poll now) now exclude i := by
  rw [mem_candidates]
  constructor
  · intro h
    obtain ⟨hi, hex, hav, hw⟩ := h
    simp only [Backend.isAvailable, Bool.and_eq_true, Bool.not_eq_true'] at hav
    obtain ⟨⟨hh, he⟩, ha⟩ := hav
    refine ⟨hi, hex, hh, (isEjected_eq_false_iff _ _).mp he, ?_, ?_⟩
    · rcases (CircuitBreaker.admits_eq_true_iff _ _ _).mp ha with hc | ⟨hs, hcap⟩ | ⟨ho, hcool⟩
      · exact Or.inl hc
      · exact Or.inr ⟨hs, by rwa [Nat.max_comm]⟩
      · rw [breaker_poll hi] at ho hcool
        obtain ⟨_, hlt, heq⟩ := CircuitBreaker.cooling_of_poll ho
        rw [heq] at hcool
        exact absurd hcool (Nat.not_le_of_lt hlt)
    · exact fun hs => Nat.pos_of_ne_zero (hw hs)
  · intro h
    refine ⟨h.inRange, h.notExcluded, ?_, fun hs => Nat.ne_of_gt (h.weight hs)⟩
    simp only [Backend.isAvailable, Bool.and_eq_true, Bool.not_eq_true']
    refine ⟨⟨h.healthy, (isEjected_eq_false_iff _ _).mpr h.notEjected⟩, ?_⟩
    rw [CircuitBreaker.admits_eq_true_iff]
    rcases h.breaker with hc | ⟨hs, hcap⟩
    · exact Or.inl hc
    · exact Or.inr (Or.inl ⟨hs, by rwa [Nat.max_comm]⟩)

/-- Selection after a poll is sound and complete.  It returns only a selectable
backend; it returns nothing exactly when no backend is selectable, and then the
pool is unchanged; and otherwise it changes only the cursor, the current weights
and the cached ring. -/
theorem select_sound_complete {p : Pool} (h : p.Reachable) (now : Nat)
    (key : Option String) (exclude : List Nat) :
    let q := p.poll now
    let r := q.select now key exclude
    (∀ i, r.1 = some i → Selectable q now exclude i) ∧
    (r.1 = none ↔ ∀ i, ¬ Selectable q now exclude i) ∧
    (r.1 = none → r.2 = q) ∧
    SelectFrame q r.2 := by
  intro q r
  have hok : RingOk q := ringOk_apply (ringOk_of_reachable h) (.poll now)
  refine ⟨?_, ?_, ?_, q.selectFrame_select now key exclude⟩
  · intro i hi
    exact mem_candidates_poll_iff.mp (select_mem hok hi)
  · rw [select_eq_none_iff, List.eq_nil_iff_forall_not_mem]
    exact forall_congr' (fun i => not_congr mem_candidates_poll_iff)
  · intro hnone
    exact congrArg Prod.snd (select_of_nil key (select_eq_none_iff.mp hnone))

/-- A pool of two backends, of weights 1 and 2. -/
def twoBackends : Pool :=
  ((Pool.new "api" .roundRobin .default).addBackend
    (.new "a" 1 .default .default)).addBackend (.new "b" 2 .default .default)

theorem reachable_twoBackends : twoBackends.Reachable := by
  refine ⟨.new "api" .roundRobin .default,
    [.addBackend (.new "a" 1 .default .default),
      .addBackend (.new "b" 2 .default .default)], ⟨_, _, _, rfl⟩, ?_, rfl⟩
  exact ⟨Backend.fresh_new _ _ _ _, Backend.fresh_new _ _ _ _, trivial⟩

/-- With the first of two backends excluded, the second one is selectable. -/
theorem select_sound_complete_two : Selectable (twoBackends.poll 5) 5 [0] 1 :=
  (select_sound_complete reachable_twoBackends 5 none [0]).1 1 (by decide)

end Pool

end Echofront
