import Echofront.Pool.RoundRobin
import Echofront.Pool.Quarantine

/-!
# Polling more often

A caller polls the pool before it selects or records an outcome.  This module says what
further polls change.

* With the latency layer a second poll at the same time changes nothing: `poll_poll_some`
  goes through the stages of a poll, and each of them leaves what it has made.
* Without the latency layer a later poll does what an earlier one did, `poll_poll_none`.
* `MorePolls` relates a run to the run with further polls in it.  `InStep` is the
  invariant: one poll makes the two pools equal, and where the last call of the run is a
  poll they are equal.

`poll_more_often` puts these together, and `poll_more_often_state` says why it does not
speak of the states between a further poll and the next poll of the run.
-/

namespace Echofront

open Lib

theorem CircuitBreaker.poll_poll (b : CircuitBreaker) (t u : Nat) :
    (b.poll t).poll u = b.poll (max t u) := by
  rcases b.poll_cases t with ⟨ho, hcool, heq⟩ | ⟨heq, hcool⟩
  · have hmax : b.cfg.cooldownMs ≤ max t u - b.openedAt := by omega
    rw [heq]
    simp [poll, ho, hmax]
  · rw [heq]
    unfold poll
    by_cases ho : b.state = .open
    · have hlt := hcool ho
      have hiff : b.cfg.cooldownMs ≤ u - b.openedAt ↔
          b.cfg.cooldownMs ≤ max t u - b.openedAt := by omega
      simp only [hiff]
    · simp [ho]

namespace Backend

/-! ## A poll twice -/

/-- No further step is due at the time of a poll. -/
theorem rampDue_rampUp {cfg : EwmaConfig} (hpos : 0 < cfg.rampWindowMs) {now : Nat}
    {b : Backend} (hu : (b.rampUp cfg now).ejectedUntil = none)
    (hlt : (b.rampUp cfg now).rampPercent < 100) :
    (b.rampUp cfg now).rampDue cfg now = false := by
  unfold rampUp at *
  split_ifs at * with hramp hdue
  · simpa [rampDue] using hpos.ne'
  · exact Bool.not_eq_true _ ▸ hdue
  · exact absurd ⟨hu, hlt⟩ hramp

theorem evaluateLatency_of_not_over {cfg : EwmaConfig} {line now : Nat} {b : Backend}
    (hu : b.ejectedUntil = none) (ho : b.isOver cfg line = false) :
    b.evaluateLatency cfg line now = { b with overSince := none } := by
  unfold evaluateLatency
  rw [if_pos hu, if_neg (by simp [ho])]

theorem evaluateLatency_of_open {cfg : EwmaConfig} {line now since : Nat} {b : Backend}
    (hu : b.ejectedUntil = none) (ho : b.isOver cfg line = true)
    (hs : b.overSince = some since) (hw : b.windowFull cfg now since = false) :
    b.evaluateLatency cfg line now = b := by
  unfold evaluateLatency
  rw [if_pos hu, if_pos ho, hs]
  simp only [hw, Bool.false_eq_true, if_false]

/-- A second latency evaluation finds nothing to change.  A window that the first one
has opened is not full at once. -/
theorem evaluateLatency_evaluateLatency {cfg : EwmaConfig}
    (hpos : 0 < cfg.windowMs ∨ 0 < cfg.minSamples) (line now : Nat) (b : Backend) :
    (b.evaluateLatency cfg line now).evaluateLatency cfg line now =
      b.evaluateLatency cfg line now := by
  rcases b.evaluateLatency_cases cfg line now with
    ⟨hne, heq⟩ | ⟨hu, ho, heq⟩ | ⟨hu, ho, _, heq⟩ | ⟨_, _, _, _, _, heq⟩ |
      ⟨_, _, _, _, _, heq⟩
  · rw [heq, heq]
  · rw [heq]
    exact evaluateLatency_of_not_over hu ho
  · rw [heq]
    refine evaluateLatency_of_open hu ho rfl ?_
    simp only [windowFull, Nat.sub_self, Bool.and_eq_false_iff, decide_eq_false_iff_not,
      Nat.not_le]
    exact hpos
  · rw [heq, heq]
  · rw [heq]
    simp [evaluateLatency]

/-- After a poll with the latency layer no ejection has expired. -/
theorem lt_of_ejectedUntil_poll {cfg : EwmaConfig} (hpos : 0 < cfg.ejectionMs)
    {threshold : Option Nat} {now : Nat} (hnow : now < u64Max) {b : Backend} {u : Nat}
    (hu : (b.poll (some cfg) threshold now).ejectedUntil = some u) : now < u := by
  change (b.poll (some cfg) threshold now).ejection.ejectedUntil = some u at hu
  rcases poll_some_cases cfg threshold now b with
    ⟨he, hk⟩ | ⟨_, _, hk⟩ | ⟨_, _, _, hk⟩ | ⟨_, _, _, _, _, hk⟩ | ⟨_, _, _, _, _, hk⟩ <;>
    rw [hk] at hu
  · simp only [ejection] at hu
    simpa [isEjected, hu] using he
  · exact absurd hu (by simp)
  · exact absurd hu (by simp)
  · exact absurd hu (by simp)
  · obtain rfl := Option.some.inj hu
    exact Nat.lt_min.mpr ⟨Nat.lt_add_of_pos_right hpos, hnow⟩

/-- With the latency layer a second poll at the same time changes nothing. -/
theorem poll_poll_some {cfg : EwmaConfig} (hramp : 0 < cfg.rampWindowMs)
    (hejection : 0 < cfg.ejectionMs) (hwindow : 0 < cfg.windowMs ∨ 0 < cfg.minSamples)
    {now : Nat} (hnow : now < u64Max) (threshold : Option Nat) (b : Backend) :
    (b.poll (some cfg) threshold now).poll (some cfg) threshold now =
      b.poll (some cfg) threshold now := by
  -- the state before the last stage
  obtain ⟨c, hc⟩ : ∃ c, c = { b with breaker := b.breaker.poll now }.reinstate (some cfg) now :=
    ⟨_, rfl⟩
  have hpoll : b.poll (some cfg) threshold now =
      (c.rampUp cfg now).evaluateLatency cfg (threshold.getD 0) now := by
    rw [hc]
    rfl
  have hexpiry : ∀ u, (b.poll (some cfg) threshold now).ejectedUntil = some u → now < u :=
    fun u => lt_of_ejectedUntil_poll hejection hnow
  have hbreaker : (b.poll (some cfg) threshold now).breaker.poll now =
      (b.poll (some cfg) threshold now).breaker := by
    rw [poll_breaker, CircuitBreaker.poll_poll, Nat.max_self]
  generalize b.poll (some cfg) threshold now = d at hpoll hexpiry hbreaker ⊢
  have hsame : { d with breaker := d.breaker.poll now } = d := by rw [hbreaker]
  have hfix : d.rampUp cfg now = d := by
    refine rampUp_of_not_due fun hu hlt => ?_
    rcases (c.rampUp cfg now).evaluateLatency_cases cfg (threshold.getD 0) now with
      ⟨hne, heq⟩ | ⟨hu', _, heq⟩ | ⟨hu', _, _, heq⟩ | ⟨_, hu', _, _, _, heq⟩ |
        ⟨_, _, _, _, _, heq⟩ <;> rw [heq] at hpoll <;> subst hpoll
    · exact absurd hu hne
    · exact rampDue_rampUp hramp hu' hlt
    · exact rampDue_rampUp hramp hu' hlt
    · exact rampDue_rampUp hramp hu' hlt
    · exact absurd hu (by simp)
  show (({ d with breaker := d.breaker.poll now }.reinstate (some cfg) now).rampUp cfg
    now).evaluateLatency cfg (threshold.getD 0) now = d
  rw [hsame, reinstate_of_lt _ hexpiry, hfix, hpoll]
  exact evaluateLatency_evaluateLatency hwindow _ _ _

/-! ## Polls without the latency layer -/

/-- A backend with new values of what a poll without the latency layer may change. -/
def withPolled (b : Backend) (breaker : CircuitBreaker) (ejectedUntil : Option Nat)
    (outlierFailures : Nat) : Backend :=
  { b with
    breaker := breaker
    ejectedUntil := ejectedUntil
    outlierFailures := outlierFailures }

/-- Without the latency layer a poll ends an expired ejection, -/
theorem poll_none_of_expired {threshold : Option Nat} {now v : Nat} {b : Backend}
    (hv : b.ejectedUntil = some v) (hle : v ≤ now) :
    b.poll none threshold now = b.withPolled (b.breaker.poll now) none 0 := by
  show { b with breaker := b.breaker.poll now }.reinstate none now = _
  simp [reinstate, withPolled, hv, hle]

/-- and where none has expired it polls the breaker only. -/
theorem poll_none_of_lt {threshold : Option Nat} {now : Nat} {b : Backend}
    (h : ∀ v, b.ejectedUntil = some v → now < v) :
    b.poll none threshold now =
      b.withPolled (b.breaker.poll now) b.ejectedUntil b.outlierFailures := by
  have hlt : ∀ v, { b with breaker := b.breaker.poll now }.ejectedUntil = some v → now < v := h
  exact reinstate_of_lt none hlt

theorem expired_or_lt (b : Backend) (now : Nat) :
    (∃ v, b.ejectedUntil = some v ∧ v ≤ now) ∨ ∀ v, b.ejectedUntil = some v → now < v := by
  cases b.ejectedUntil with
  | none => exact Or.inr (by simp)
  | some v =>
    rcases Nat.lt_or_ge now v with hlt | hle
    · exact Or.inr (by simpa using hlt)
    · exact Or.inl ⟨v, rfl, hle⟩

/-- The later of two polls does what the earlier one did. -/
theorem poll_poll_none (threshold threshold' : Option Nat) (t u : Nat) (b : Backend) :
    (b.poll none threshold t).poll none threshold' u = b.poll none threshold (max t u) := by
  have hbreaker := b.breaker.poll_poll t u
  rcases b.expired_or_lt t with ⟨v, hv, hle⟩ | hlt
  · rw [poll_none_of_expired hv hle, poll_none_of_expired hv (hle.trans (Nat.le_max_left t u)),
      poll_none_of_lt (by simp [withPolled]), ← hbreaker]
    rfl
  · rw [poll_none_of_lt hlt]
    generalize hc : b.withPolled (b.breaker.poll t) b.ejectedUntil b.outlierFailures = c
    have hu : c.ejectedUntil = b.ejectedUntil := hc ▸ rfl
    rcases b.expired_or_lt u with ⟨v, hv, hle⟩ | hlt'
    · rw [poll_none_of_expired hv (hle.trans (Nat.le_max_right t u)),
        poll_none_of_expired (hu.trans hv) hle, ← hc, ← hbreaker]
      rfl
    · rw [poll_none_of_lt fun v hv => hlt' v (hu.symm.trans hv),
        poll_none_of_lt fun v hv => Nat.max_lt.mpr ⟨hlt v hv, hlt' v hv⟩, ← hc, ← hbreaker]
      rfl

/-- A poll commutes with an operation that neither reads nor writes what the poll may
change. -/
theorem poll_none_comm {f : Backend → Backend}
    (hf : ∀ (b : Backend) breaker ejectedUntil outlierFailures,
      f (b.withPolled breaker ejectedUntil outlierFailures) =
        (f b).withPolled breaker ejectedUntil outlierFailures)
    (threshold : Option Nat) (now : Nat) (b : Backend) :
    (f b).poll none threshold now = f (b.poll none threshold now) := by
  have hb : f b = (f b).withPolled b.breaker b.ejectedUntil b.outlierFailures :=
    hf b b.breaker b.ejectedUntil b.outlierFailures
  have hbreaker : (f b).breaker = b.breaker := by
    rw [hb]
    rfl
  have hu : (f b).ejectedUntil = b.ejectedUntil := by
    rw [hb]
    rfl
  have ho : (f b).outlierFailures = b.outlierFailures := by
    rw [hb]
    rfl
  rcases b.expired_or_lt now with ⟨v, hv, hle⟩ | hlt
  · rw [poll_none_of_expired (hu.trans hv) hle, poll_none_of_expired hv hle, hf, hbreaker]
  · rw [poll_none_of_lt fun v h => hlt v (hu.symm.trans h), poll_none_of_lt hlt, hf, hbreaker,
      hu, ho]

theorem runHealthCheck_withPolled (health : HealthConfig) (now : Nat) (live : Bool)
    (b : Backend) (breaker : CircuitBreaker) (ejectedUntil : Option Nat)
    (outlierFailures : Nat) :
    (b.withPolled breaker ejectedUntil outlierFailures).runHealthCheck health now live =
      (b.runHealthCheck health now live).withPolled breaker ejectedUntil outlierFailures := by
  have hdue : (b.withPolled breaker ejectedUntil outlierFailures).probeDue health now =
      b.probeDue health now := rfl
  unfold runHealthCheck
  rw [hdue]
  cases b.probeDue health now with
  | false => rfl
  | true =>
    cases live with
    | false =>
      by_cases hle : health.unhealthyProbeThreshold ≤ incr32 b.probeFailures <;>
        cases hh : b.healthy <;> simp [withPolled, hh, hle]
    | true =>
      by_cases hle : health.healthyProbeThreshold ≤ incr32 b.probeSuccesses <;>
        cases hh : b.healthy <;> simp [withPolled, hh, hle]

end Backend

namespace Pool

/-! ## Polls of the pool -/

/-- A poll changes neither the average nor the line of the pool. -/
theorem threshold_poll (p : Pool) (now : Nat) : (p.poll now).threshold = p.threshold := by
  have hmean : (p.poll now).ewmaMean = p.ewmaMean := by
    unfold ewmaMean Pool.poll
    cases p.ewma with
    | none => rfl
    | some cfg =>
      have hqualifies : qualifies cfg ∘ Backend.poll (some cfg) p.threshold now =
          qualifies cfg := by
        funext b
        simp [qualifies]
      simp [List.filter_map, hqualifies, Function.comp_def]
  unfold threshold
  rw [hmean]
  rfl

/-- What a second poll does to every backend it does to the pool. -/
theorem poll_poll_of_backend {p : Pool} {t u v : Nat}
    (h : ∀ b : Backend, (b.poll p.ewma p.threshold t).poll p.ewma p.threshold u =
      b.poll p.ewma p.threshold v) :
    (p.poll t).poll u = p.poll v := by
  have hline := p.threshold_poll t
  show { p.poll t with
      backends := (p.poll t).backends.map (Backend.poll p.ewma (p.poll t).threshold u) } = _
  rw [hline]
  simp only [Pool.poll, List.map_map]
  congr 1
  exact List.map_congr_left fun b _ => h b

/-- With the latency layer a second poll at the same time changes nothing. -/
theorem poll_poll_some {p : Pool} {cfg : EwmaConfig} {now : Nat} (he : p.ewma = some cfg)
    (hramp : 0 < cfg.rampWindowMs) (hejection : 0 < cfg.ejectionMs) (hnow : now < u64Max)
    (hwindow : 0 < cfg.windowMs ∨ 0 < cfg.minSamples) :
    (p.poll now).poll now = p.poll now := by
  refine poll_poll_of_backend fun b => ?_
  rw [he]
  exact Backend.poll_poll_some hramp hejection hwindow hnow p.threshold b

/-- Without it the later of two polls does what the earlier one did. -/
theorem poll_poll_none {p : Pool} (he : p.ewma = none) (t u : Nat) :
    (p.poll t).poll u = p.poll (max t u) := by
  refine poll_poll_of_backend fun b => ?_
  rw [he]
  exact Backend.poll_poll_none p.threshold p.threshold t u b

/-- The time of a call that uses what a poll leaves: a selection, or the record of an
outcome. -/
def useTime : Op → Option Nat
  | .select now _ _ | .recordSuccess _ now | .recordSuccessLatency _ now _
  | .recordFailure _ now => some now
  | .addBackend _ | .setStrategy _ | .enableEwma _ | .poll _ | .begin _ | .endCall _
  | .runHealthChecks _ _ => none

theorem time_of_useTime {op : Op} {t : Nat} (h : useTime op = some t) : op.time = some t := by
  cases op with
  | select now key exclude => exact h
  | recordSuccess idx now => exact h
  | recordSuccessLatency idx now latencyMs => exact h
  | recordFailure idx now => exact h
  | _ => exact absurd h (by simp [useTime])

/-- Without the latency layer a poll commutes with an update of one backend that commutes
with it. -/
theorem poll_modify_comm {p : Pool} (he : p.ewma = none) {f : Backend → Backend}
    (hf : ∀ (b : Backend) breaker ejectedUntil outlierFailures,
      f (b.withPolled breaker ejectedUntil outlierFailures) =
        (f b).withPolled breaker ejectedUntil outlierFailures) (idx now : Nat) :
    (p.modify idx f).poll now = (p.poll now).modify idx f := by
  have hline : (p.modify idx f).threshold = p.threshold := by
    simp [threshold, modify, he]
  unfold Pool.poll
  rw [hline]
  simp only [modify, he]
  congr 1
  refine List.ext_getElem? fun i => ?_
  simp only [List.getElem?_map, List.getElem?_modify]
  cases p.backends[i]? with
  | none => rfl
  | some b =>
    by_cases hi : idx = i
    · simp [hi, Backend.poll_none_comm hf]
    · simp [hi]

/-- A poll does nothing to a new backend. -/
theorem poll_none_fresh {b : Backend} (h : b.Fresh) (threshold : Option Nat) (now : Nat) :
    b.poll none threshold now = b := by
  obtain ⟨health, breakerCfg, hb⟩ := h
  rw [hb]
  exact Backend.poll_none_of_lt (by simp [Backend.new])

/-- Without the latency layer a poll may come after a call that does not use it as well
as before it. -/
theorem poll_apply_comm {p : Pool} (he : p.ewma = none) {op : Op}
    (hfresh : ∀ b, op = .addBackend b → b.Fresh) (hpoll : op.pollTime = none)
    (huse : useTime op = none) (hewma : ∀ c, op ≠ .enableEwma c) (now : Nat) :
    (p.apply op).poll now = (p.poll now).apply op := by
  cases op with
  | addBackend b =>
    have hline : (p.addBackend b).threshold = p.threshold := by
      simp [threshold, addBackend, he]
    show { p.addBackend b with
      backends := (p.backends ++ [b]).map (Backend.poll p.ewma (p.addBackend b).threshold now) } =
      _
    rw [hline, List.map_append, List.map_singleton, he, poll_none_fresh (hfresh b rfl)]
    simp only [apply, Pool.poll, addBackend, he]
  | setStrategy s => rfl
  | enableEwma c => exact absurd rfl (hewma c)
  | begin idx => exact poll_modify_comm he (fun _ _ _ _ => rfl) idx now
  | endCall idx => exact poll_modify_comm he (fun _ _ _ _ => rfl) idx now
  | runHealthChecks t probe =>
    have hline : (p.runHealthChecks t probe).threshold = p.threshold := by
      simp [threshold, Pool.runHealthChecks, he]
    show (p.runHealthChecks t probe).poll now = (p.poll now).runHealthChecks t probe
    unfold Pool.poll
    rw [hline]
    simp only [Pool.runHealthChecks, he]
    congr 1
    refine List.ext_getElem? fun i => ?_
    simp only [List.getElem?_map, List.getElem?_mapIdx]
    cases p.backends[i]? with
    | none => rfl
    | some b =>
      have hcomm := Backend.poll_none_comm
        (Backend.runHealthCheck_withPolled p.health t (probe i)) p.threshold now b
      simp [hcomm]
  | poll t => exact absurd hpoll (by simp [Op.pollTime])
  | _ => exact absurd huse (by simp [useTime])

/-! ## Further polls in a run -/

/-- The second run is the first one with further polls in it. -/
inductive MorePolls : List Op → List Op → Prop
  | nil : MorePolls [] []
  | keep {ops ops' : List Op} (op : Op) (h : MorePolls ops ops') :
      MorePolls (ops ++ [op]) (ops' ++ [op])
  | poll {ops ops' : List Op} (now : Nat) (h : MorePolls ops ops') :
      MorePolls ops (ops' ++ [.poll now])

theorem MorePolls.refl (ops : List Op) : MorePolls ops ops := by
  induction ops using List.reverseRecOn with
  | nil => exact .nil
  | append_singleton ops op ih => exact ih.keep op

/-- Every call that uses what a poll leaves comes directly after a poll at its own
time. -/
def Polled (ops : List Op) : Prop :=
  ∀ pre op post t, ops = pre ++ op :: post → useTime op = some t →
    ∃ before, pre = before ++ [.poll t]

theorem Polled.left {ops : List Op} {op : Op} (h : Polled (ops ++ [op])) : Polled ops := by
  intro pre o post t heq ht
  exact h pre o (post ++ [op]) t (by rw [heq]; simp) ht

theorem polled_nil : Polled [] := by
  intro pre op post t heq
  simp at heq

theorem Polled.concat {ops : List Op} (h : Polled ops) (op : Op)
    (hop : ∀ t, useTime op = some t → ∃ before, ops = before ++ [.poll t]) :
    Polled (ops ++ [op]) := by
  intro pre o post t heq ht
  rcases List.eq_nil_or_concat post with rfl | ⟨post', last, rfl⟩
  · obtain ⟨rfl, hlast⟩ := List.append_inj' heq rfl
    rw [← List.singleton_inj.mp hlast] at ht
    exact hop t ht
  · have hsplit : ops ++ [op] = (pre ++ o :: post') ++ [last] := by
      rw [heq]
      simp
    exact h pre o post' t (List.append_inj' hsplit rfl).1 ht

/-- No call of the list comes after the time. -/
def Until (ops : List Op) (T : Nat) : Prop := ∀ op ∈ ops, ∀ t, op.time = some t → t ≤ T

theorem until_of_nondecreasing {ops : List Op} {op : Op} {t : Nat}
    (h : Nondecreasing Op.time (ops ++ [op])) (ht : op.time = some t) : Until ops t :=
  fun _ ho _ hr => h.le ho hr List.mem_cons_self ht

/-- What the further polls leave of the difference between the two pools. -/
structure InStep (p : Pool) (ops ops' : List Op) : Prop where
  /-- One poll makes them equal, -/
  poll : ∀ T, Until ops' T →
    (poolSystem.exec p ops').poll T = (poolSystem.exec p ops).poll T
  /-- and after a poll they are equal. -/
  polled : ∀ before t, ops = before ++ [.poll t] → Until ops' t →
    poolSystem.exec p ops' = poolSystem.exec p ops

theorem ewma_exec_of_ne {p : Pool} {ops : List Op} (h : ∀ op ∈ ops, ∀ c, op ≠ .enableEwma c) :
    (poolSystem.exec p ops).ewma = p.ewma := by
  induction ops generalizing p with
  | nil => rfl
  | cons op ops ih =>
    exact (ih (fun o ho => h o (List.mem_cons_of_mem _ ho))).trans
      (ewma_apply p op (h op List.mem_cons_self))

theorem MorePolls.ne_enableEwma {ops ops' : List Op} (h : MorePolls ops ops')
    (hewma : ∀ op ∈ ops, ∀ c, op ≠ .enableEwma c) : ∀ op ∈ ops', ∀ c, op ≠ .enableEwma c := by
  induction h with
  | nil => exact hewma
  | keep op _ ih =>
    intro o ho
    rcases List.mem_append.mp ho with ho | ho
    · exact ih (fun o h => hewma o (List.mem_append_left _ h)) o ho
    · exact hewma o (List.mem_append_right _ ho)
  | poll now _ ih =>
    intro o ho
    rcases List.mem_append.mp ho with ho | ho
    · exact ih hewma o ho
    · rw [List.mem_singleton.mp ho]
      simp

variable {p : Pool} {ops ops' : List Op}

/-- A further poll. -/
theorem InStep.add_poll (h : InStep p ops ops') (he : (poolSystem.exec p ops').ewma = none)
    (he' : (poolSystem.exec p ops).ewma = none) (now : Nat) :
    InStep p ops (ops' ++ [.poll now]) := by
  have hexec : poolSystem.exec p (ops' ++ [.poll now]) = (poolSystem.exec p ops').poll now :=
    exec_concat p ops' (.poll now)
  have hleft : ∀ {T}, Until (ops' ++ [.poll now]) T → Until ops' T ∧ now ≤ T := fun hT =>
    ⟨fun o ho => hT o (List.mem_append_left _ ho), hT (.poll now) (by simp) now rfl⟩
  refine ⟨fun T hT => ?_, fun before t heq hT => ?_⟩
  · obtain ⟨hT', hle⟩ := hleft hT
    rw [hexec, poll_poll_none he, Nat.max_eq_right hle]
    exact h.poll T hT'
  · obtain ⟨hT', hle⟩ := hleft hT
    rw [hexec, h.polled before t heq hT']
    -- the run has polled at `t`, and the further poll is not later
    subst heq
    rw [exec_concat] at he' ⊢
    have hbefore : (poolSystem.exec p before).ewma = none := he'
    show ((poolSystem.exec p before).poll t).poll now = (poolSystem.exec p before).poll t
    rw [poll_poll_none hbefore, Nat.max_eq_left hle]

/-- A call of both runs. -/
theorem InStep.add_call (h : InStep p ops ops') (he : (poolSystem.exec p ops').ewma = none)
    (he' : (poolSystem.exec p ops).ewma = none) {op : Op}
    (hfresh : ∀ b, op = .addBackend b → b.Fresh)
    (hewma : ∀ c, op ≠ .enableEwma c) (hpolled : Polled (ops ++ [op]))
    (hn : Nondecreasing Op.time (ops' ++ [op])) : InStep p (ops ++ [op]) (ops' ++ [op]) := by
  -- the pools after the call are equal, or the call commutes with a poll
  cases hpoll : op.pollTime with
  | some t =>
    obtain rfl := Op.eq_poll_of_pollTime hpoll
    have hsame : (poolSystem.exec p ops').poll t = (poolSystem.exec p ops).poll t :=
      h.poll t (until_of_nondecreasing hn rfl)
    refine ⟨fun T _ => ?_, fun _ _ _ _ => ?_⟩ <;> rw [exec_concat, exec_concat]
    · exact congrArg (Pool.poll · T) hsame
    · exact hsame
  | none =>
    have hlast : ∀ before t, ops ++ [op] ≠ before ++ [.poll t] := by
      intro before t heq
      obtain ⟨_, hop⟩ := List.append_inj' heq rfl
      rw [List.singleton_inj.mp hop] at hpoll
      exact absurd hpoll (by simp [Op.pollTime])
    cases huse : useTime op with
    | some t =>
      obtain ⟨before, hbefore⟩ := hpolled ops op [] t rfl huse
      have hsame := h.polled before t hbefore
        (until_of_nondecreasing hn (time_of_useTime huse))
      refine ⟨fun T _ => ?_, fun before t heq _ => absurd heq (hlast before t)⟩
      rw [exec_concat, exec_concat, hsame]
    | none =>
      refine ⟨fun T hT => ?_, fun before t heq _ => absurd heq (hlast before t)⟩
      rw [exec_concat, exec_concat, poll_apply_comm he hfresh hpoll huse hewma,
        poll_apply_comm he' hfresh hpoll huse hewma,
        h.poll T (fun o ho => hT o (List.mem_append_left _ ho))]

/-- The run lemma. -/
theorem inStep_of_morePolls (h : MorePolls ops ops') (he : p.ewma = none)
    (hv : poolSystem.Valid p ops) (hewma : ∀ op ∈ ops, ∀ c, op ≠ .enableEwma c)
    (hpolled : Polled ops) (hn : Nondecreasing Op.time ops') : InStep p ops ops' := by
  induction h with
  | nil => exact ⟨fun _ _ => rfl, fun _ _ _ _ => rfl⟩
  | @keep ops ops' op h ih =>
    have hewma' : ∀ o ∈ ops, ∀ c, o ≠ .enableEwma c :=
      fun o ho => hewma o (List.mem_append_left _ ho)
    refine (ih hv.left hewma' hpolled.left hn.left).add_call
      ((ewma_exec_of_ne (h.ne_enableEwma hewma')).trans he)
      ((ewma_exec_of_ne hewma').trans he) (fun b hb => ?_)
      (hewma op (List.mem_append_right _ (List.mem_singleton_self op))) hpolled hn
    have hok := hv.right.1
    rw [hb] at hok
    exact hok
  | @poll ops ops' now h ih =>
    exact (ih hv hewma hpolled hn.left).add_poll
      ((ewma_exec_of_ne (h.ne_enableEwma hewma)).trans he)
      ((ewma_exec_of_ne hewma).trans he) now

/-- Polling more often is harmless.

* With the latency layer on, and but for the configurations in which one poll undoes the
  work of another, a second poll at the same time changes nothing.
* With it off the later of two polls does what both do.
* With it off, in a run in which every selection and every record of an outcome comes
  directly after a poll at its own time, further polls change no selection and no state
  that a poll, a selection or a record leaves; and at every moment one poll makes the
  states with and without them equal.  Here `ops` is the run up to a call `op`, and
  `ops'` is `ops` with further polls. -/
theorem poll_more_often :
    (∀ (p : Pool) cfg now, p.ewma = some cfg → 0 < cfg.rampWindowMs → 0 < cfg.ejectionMs →
      now < u64Max → 0 < cfg.windowMs ∨ 0 < cfg.minSamples →
      (p.poll now).poll now = p.poll now) ∧
    (∀ (p : Pool) t₁ t₂, p.ewma = none → t₁ ≤ t₂ → (p.poll t₁).poll t₂ = p.poll t₂) ∧
    ∀ (p : Pool) ops ops' op, p.ewma = none → poolSystem.Valid p (ops ++ [op]) →
      (∀ o ∈ ops ++ [op], ∀ c, o ≠ .enableEwma c) → Polled (ops ++ [op]) →
      MorePolls ops ops' → Nondecreasing Op.time (ops' ++ [op]) →
      (op.pollTime ≠ none ∨ useTime op ≠ none →
        pick (poolSystem.exec p ops') op = pick (poolSystem.exec p ops) op ∧
        poolSystem.exec p (ops' ++ [op]) = poolSystem.exec p (ops ++ [op])) ∧
      ∀ T, Until ops' T →
        (poolSystem.exec p ops').poll T = (poolSystem.exec p ops).poll T := by
  refine ⟨fun p cfg now he hr hj hnow hw => poll_poll_some he hr hj hnow hw,
    fun p t₁ t₂ he hle => ?_, ?_⟩
  · rw [poll_poll_none he, Nat.max_eq_right hle]
  · intro p ops ops' op he hv hewma hpolled h hn
    have hstep := inStep_of_morePolls h he hv.left
      (fun o ho => hewma o (List.mem_append_left _ ho)) hpolled.left hn.left
    refine ⟨fun hop => ?_, hstep.poll⟩
    rw [exec_concat, exec_concat]
    cases hpoll : op.pollTime with
    | some t =>
      obtain rfl := Op.eq_poll_of_pollTime hpoll
      exact ⟨rfl, hstep.poll t (until_of_nondecreasing hn rfl)⟩
    | none =>
      obtain ⟨t, ht⟩ := Option.ne_none_iff_exists'.mp (hop.resolve_left (by simp [hpoll]))
      obtain ⟨before, hbefore⟩ := hpolled ops op [] t rfl ht
      rw [hstep.polled before t hbefore (until_of_nondecreasing hn (time_of_useTime ht))]
      exact ⟨rfl, rfl⟩

/-- A backend that its first failure trips, and a call on it that fails at 10. -/
def trippedCalls : List Op :=
  [.addBackend (fragile "a"), .begin 0, .poll 10, .recordFailure 0 10]

theorem polled_trippedCalls : Polled trippedCalls :=
  (((polled_nil.concat (.addBackend (fragile "a")) (by simp [useTime])).concat
    (.begin 0) (by simp [useTime])).concat (.poll 10) (by simp [useTime])).concat
    (.recordFailure 0 10) fun t ht =>
      ⟨[.addBackend (fragile "a"), .begin 0], by
        rw [← Option.some.inj ht]
        rfl⟩

theorem valid_trippedCalls (name : String) (strategy : Strategy) (health : HealthConfig) :
    poolSystem.Valid (.new name strategy health) trippedCalls :=
  ⟨Backend.fresh_new _ _ _ _, Nat.zero_lt_one, trivial, Nat.zero_lt_one, trivial⟩

/-- A further poll while the breaker cools down, before the poll that finds it cooled. -/
theorem poll_more_often_tripped :
    poolSystem.exec (.new "api" .roundRobin .default)
      (trippedCalls ++ [.poll 50] ++ [.poll 110]) =
    poolSystem.exec (.new "api" .roundRobin .default) (trippedCalls ++ [.poll 110]) := by
  have hv : poolSystem.Valid (.new "api" .roundRobin .default) (trippedCalls ++ [.poll 110]) :=
    (System.valid_append_iff _ _ _ _).mpr ⟨valid_trippedCalls _ _ _, trivial, trivial⟩
  exact ((poll_more_often.2.2 (.new "api" .roundRobin .default) trippedCalls
    (trippedCalls ++ [.poll 50]) (.poll 110) rfl hv (by simp [trippedCalls])
    (polled_trippedCalls.concat (.poll 110) (by simp [useTime]))
    ((MorePolls.refl trippedCalls).poll 50) (by decide)).1 (Or.inl (by simp [Op.pollTime]))).2

/-- Until the next poll of the run the states can differ: a further poll has found the
breaker cooled when the call ends. -/
theorem poll_more_often_state :
    let p := Pool.new "api" .roundRobin .default
    let ops := trippedCalls ++ [.endCall 0]
    let ops' := trippedCalls ++ [.poll 110] ++ [.endCall 0]
    p.ewma = none ∧ poolSystem.Valid p ops ∧ (∀ op ∈ ops, ∀ c, op ≠ .enableEwma c) ∧
    Polled ops ∧ MorePolls ops ops' ∧ Nondecreasing Op.time ops' ∧
    poolSystem.exec p ops' ≠ poolSystem.exec p ops := by
  intro p ops ops'
  refine ⟨rfl, ?_, by simp [ops, trippedCalls], ?_, ?_, by decide, by decide⟩
  · exact (System.valid_append_iff _ _ _ _).mpr
      ⟨valid_trippedCalls _ _ _, Nat.zero_lt_one, trivial⟩
  · exact polled_trippedCalls.concat (.endCall 0) (by simp [useTime])
  · exact ((MorePolls.refl trippedCalls).poll 110).keep (.endCall 0)

end Pool

end Echofront
