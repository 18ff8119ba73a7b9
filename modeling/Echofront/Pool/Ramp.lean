import Echofront.Pool.Latency

/-!
# The ramp of a reinstated backend

A poll that reinstates a backend sets its ramp percent to where the configuration says it
comes back, and a later poll doubles it when a ramp window has passed since the last
move.

* `RampStep` is what one call does to the ramp of a backend, and `rampStep` the step
  lemma.
* `reinstateTime` and `rampMove` read the reinstatements and the moves of the ramp off a
  run.
* `Ramped` is the invariant of a run with one configuration: the percent is at most what
  the ramp windows between the reinstatement and the last move allow.
* `ClearSince` is the invariant of a run with any configurations: since the last move no
  ejection has begun.

`ramp_bounded` and `ramp_rises_clear` are the statements about runs.
-/

namespace Echofront

open Lib

namespace Backend

/-- The last stage of a poll leaves the ramp. -/
theorem poll_ramp (cfg : EwmaConfig) (threshold : Option Nat) (now : Nat) (b : Backend) :
    let c := { b with breaker := b.breaker.poll now }.reinstate (some cfg) now
    (b.poll (some cfg) threshold now).rampPercent = (c.rampUp cfg now).rampPercent ∧
      (b.poll (some cfg) threshold now).lastRampStep = (c.rampUp cfg now).lastRampStep := by
  simp only [poll]
  rw [evaluateLatency_eq]
  exact ⟨rfl, rfl⟩

/-- The ramp in the pass that reinstates a backend: it moves at once only if the window is
empty. -/
theorem rampUp_reinstated (cfg : EwmaConfig) (now : Nat) {b : Backend}
    (hu : b.ejectedUntil = none) (hramp : b.rampPercent = cfg.reinstateRamp)
    (hlast : b.lastRampStep = some now) :
    (b.rampUp cfg now).lastRampStep = some now ∧ 1 ≤ (b.rampUp cfg now).rampPercent ∧
      (b.rampUp cfg now).rampPercent ≤ 100 ∧
      (0 < cfg.rampWindowMs → (b.rampUp cfg now).rampPercent = cfg.reinstateRamp) := by
  have hrange : 1 ≤ cfg.reinstateRamp ∧ cfg.reinstateRamp ≤ 100 := by
    unfold EwmaConfig.reinstateRamp
    omega
  by_cases hdue : b.rampPercent < 100 ∧ b.rampDue cfg now = true
  · have hempty : ¬ 0 < cfg.rampWindowMs := by
      have hdue := hdue.2
      simp only [rampDue, hlast, Nat.sub_self, decide_eq_true_eq] at hdue
      exact Nat.not_lt_of_le hdue
    rw [rampUp_of_due hu hdue.1 hdue.2, hramp]
    refine ⟨rfl, ?_, Nat.min_le_right _ _, fun hpos => absurd hpos hempty⟩
    show 1 ≤ min (2 * cfg.reinstateRamp) 100
    omega
  · rw [rampUp_of_not_due fun _ hlt => Bool.eq_false_iff.mpr fun h => hdue ⟨hlt, h⟩, hramp]
    exact ⟨hlast, hrange.1, hrange.2, fun _ => rfl⟩

/-- What a poll with the latency layer does to the ramp. -/
theorem poll_ramp_cases (cfg : EwmaConfig) (threshold : Option Nat) (now : Nat)
    (b : Backend) :
    ((∃ u, b.ejectedUntil = some u ∧ u ≤ now) ∧
      (b.poll (some cfg) threshold now).lastRampStep = some now ∧
      1 ≤ (b.poll (some cfg) threshold now).rampPercent ∧
      (b.poll (some cfg) threshold now).rampPercent ≤ 100 ∧
      (0 < cfg.rampWindowMs →
        (b.poll (some cfg) threshold now).rampPercent = cfg.reinstateRamp)) ∨
    ((∀ u, b.ejectedUntil = some u → now < u) ∧
      (b.isEjected now = true ∨ 100 ≤ b.rampPercent ∨ b.rampDue cfg now = false) ∧
      (b.poll (some cfg) threshold now).rampPercent = b.rampPercent ∧
      (b.poll (some cfg) threshold now).lastRampStep = b.lastRampStep) ∨
    (b.ejectedUntil = none ∧ b.rampPercent < 100 ∧ b.rampDue cfg now = true ∧
      (b.poll (some cfg) threshold now).rampPercent = min (2 * b.rampPercent) 100 ∧
      (b.poll (some cfg) threshold now).lastRampStep = some now) := by
  obtain ⟨hramp, hlast⟩ := poll_ramp cfg threshold now b
  rw [hramp, hlast]
  by_cases hexp : ∃ u, b.ejectedUntil = some u ∧ u ≤ now
  · obtain ⟨u, hu, hle⟩ := hexp
    rw [reinstate_of_le cfg (b := { b with breaker := b.breaker.poll now }) hu hle]
    exact Or.inl ⟨⟨u, hu, hle⟩, rampUp_reinstated cfg now rfl rfl rfl⟩
  · have hlt : ∀ u, b.ejectedUntil = some u → now < u :=
      fun u hu => Nat.lt_of_not_le fun hle => hexp ⟨u, hu, hle⟩
    rw [reinstate_of_lt (some cfg) (b := { b with breaker := b.breaker.poll now }) hlt]
    by_cases hdue : b.ejectedUntil = none ∧ b.rampPercent < 100 ∧ b.rampDue cfg now = true
    · obtain ⟨hu, hless, hdue⟩ := hdue
      rw [rampUp_of_due (b := { b with breaker := b.breaker.poll now }) hu hless hdue]
      exact Or.inr (Or.inr ⟨hu, hless, hdue, rfl, rfl⟩)
    · have hnot : b.ejectedUntil = none → b.rampPercent < 100 → b.rampDue cfg now = false :=
        fun hu hless => Bool.eq_false_iff.mpr fun h => hdue ⟨hu, hless, h⟩
      rw [rampUp_of_not_due (b := { b with breaker := b.breaker.poll now }) hnot]
      refine Or.inr (Or.inl ⟨hlt, ?_, rfl, rfl⟩)
      cases hu : b.ejectedUntil with
      | none =>
        rcases Nat.lt_or_ge b.rampPercent 100 with hless | hfull
        · exact Or.inr (Or.inr (hnot hu hless))
        · exact Or.inr (Or.inl hfull)
      | some u => exact Or.inl (by simpa [isEjected, hu] using hlt u hu)

end Backend

namespace Pool

/-! ## The moves of a ramp -/

/-- The time of a poll that reinstates backend `i`. -/
def reinstateTime (i : Nat) (p : Pool) : Op → Option Nat
  | .poll now => if ∃ u ∈ (p.backend i).ejectedUntil, u ≤ now then some now else none
  | _ => none

/-- The time of a poll that reinstates backend `i` or changes its ramp percent. -/
def rampMove (i : Nat) (p : Pool) : Op → Option Nat
  | .poll now =>
    if reinstateTime i p (.poll now) ≠ none ∨
        ((p.poll now).backend i).rampPercent ≠ (p.backend i).rampPercent then some now
    else none
  | _ => none

/-- Only a poll touches the ramp of a backend. -/
theorem effect_ramp {p : Pool} {op : Op} (h : op.pollTime = none) (i : Nat) (b : Backend) :
    (p.effect op i b).rampPercent = b.rampPercent ∧
      (p.effect op i b).lastRampStep = b.lastRampStep := by
  have hstep := p.effectStep op i b
  generalize p.effect op i b = b' at hstep ⊢
  cases hstep with
  | polled now => exact absurd h (by simp [Op.pollTime])
  | _ => exact ⟨rfl, rfl⟩

/-- What a call does to the ramp of backend `i`: a poll reinstates the backend, the call
leaves the ramp, or a poll doubles its percent. -/
inductive RampStep (cfg : EwmaConfig) (i : Nat) (p : Pool) (op : Op) : Prop
  | reinstates {now : Nat} (hop : op = .poll now) (hre : reinstateTime i p op = some now)
      (hlast : ((p.apply op).backend i).lastRampStep = some now)
      (hpos : 1 ≤ ((p.apply op).backend i).rampPercent)
      (hle : ((p.apply op).backend i).rampPercent ≤ 100)
      (hramp : 0 < cfg.rampWindowMs →
        ((p.apply op).backend i).rampPercent = cfg.reinstateRamp)
  | stays (hre : reinstateTime i p op = none)
      (hpoll : ∀ now, op = .poll now → (p.backend i).isEjected now = true ∨
        100 ≤ (p.backend i).rampPercent ∨ (p.backend i).rampDue cfg now = false)
      (hramp : ((p.apply op).backend i).rampPercent = (p.backend i).rampPercent)
      (hlast : ((p.apply op).backend i).lastRampStep = (p.backend i).lastRampStep)
  | doubles {now : Nat} (hop : op = .poll now) (hre : reinstateTime i p op = none)
      (hu : (p.backend i).ejectedUntil = none) (hlt : (p.backend i).rampPercent < 100)
      (hdue : (p.backend i).rampDue cfg now = true)
      (hramp : ((p.apply op).backend i).rampPercent = min (2 * (p.backend i).rampPercent) 100)
      (hlast : ((p.apply op).backend i).lastRampStep = some now)

/-- The step lemma. -/
theorem rampStep {cfg : EwmaConfig} {p : Pool} (he : p.ewma = some cfg) {op : Op}
    (hok : p.Accepts op) (i : Nat) : RampStep cfg i p op := by
  rcases backend_apply_cases hok i with ⟨hi, heq⟩ | ⟨hge, health, bcfg, hb⟩
  · cases hpoll : op.pollTime with
    | none =>
      obtain ⟨hramp, hlast⟩ := p.effect_ramp hpoll i (p.backend i)
      rw [← heq] at hramp hlast
      have hre : reinstateTime i p op = none := by
        cases op with
        | poll now => exact absurd hpoll (by simp [Op.pollTime])
        | _ => rfl
      refine .stays hre (fun now hop => ?_) hramp hlast
      rw [hop] at hpoll
      exact absurd hpoll (by simp [Op.pollTime])
    | some now =>
      obtain rfl := Op.eq_poll_of_pollTime hpoll
      have heff : (p.apply (.poll now)).backend i =
          (p.backend i).poll (some cfg) p.threshold now := by
        rw [heq, ← he]
        rfl
      have hcases := (p.backend i).poll_ramp_cases cfg p.threshold now
      rw [← heff] at hcases
      rcases hcases with ⟨⟨u, hu, hle⟩, hlast, hpos, hmax, hramp⟩ |
        ⟨hlt, hwhy, hramp, hlast⟩ | ⟨hu, hlt, hdue, hramp, hlast⟩
      · exact .reinstates rfl (by simp [reinstateTime, hu, hle]) hlast hpos hmax hramp
      · refine .stays ?_ (fun t ht => Op.poll.inj ht ▸ hwhy) hramp hlast
        simp only [reinstateTime, Option.mem_def]
        rw [if_neg]
        rintro ⟨u, hu, hle⟩
        exact Nat.not_le_of_lt (hlt u hu) hle
      · exact .doubles rfl (by simp [reinstateTime, hu]) hu hlt hdue hramp hlast
  · have hold : p.backend i = default := backend_of_ge hge
    have hre : reinstateTime i p op = none := by
      cases op with
      | poll now => simp [reinstateTime, hold, default, Backend.new]
      | _ => rfl
    refine .stays hre (fun now _ => Or.inr (Or.inl ?_)) ?_ ?_
    · rw [hold]
      exact le_refl 100
    · rw [hb, hold]
      rfl
    · rw [hb, hold]
      rfl

section Moves

variable {p : Pool} {op : Op} {i now : Nat}

theorem rampMove_of_reinstates (hop : op = .poll now) (hre : reinstateTime i p op = some now) :
    rampMove i p op = some now := by
  subst hop
  simp [rampMove, hre]

theorem lt_length_of_reinstates (hre : reinstateTime i p op = some now) :
    i < p.backends.length := by
  cases op with
  | poll t =>
    simp only [reinstateTime] at hre
    split_ifs at hre with hexp
    obtain ⟨u, hu, _⟩ := hexp
    exact lt_length_of_ejectedUntil hu
  | _ => exact absurd hre (by simp [reinstateTime])

theorem rampMove_of_stays (hre : reinstateTime i p op = none)
    (hramp : ((p.apply op).backend i).rampPercent = (p.backend i).rampPercent) :
    rampMove i p op = none := by
  cases op with
  | poll now =>
    have hramp : ((p.poll now).backend i).rampPercent = (p.backend i).rampPercent := hramp
    simp [rampMove, hre, hramp]
  | _ => rfl

/-- A doubling moves a percent that is positive. -/
theorem rampMove_of_doubles (hop : op = .poll now) (hpos : 1 ≤ (p.backend i).rampPercent)
    (hlt : (p.backend i).rampPercent < 100)
    (hramp : ((p.apply op).backend i).rampPercent = min (2 * (p.backend i).rampPercent) 100) :
    rampMove i p op = some now := by
  subst hop
  have hne : ((p.poll now).backend i).rampPercent ≠ (p.backend i).rampPercent := by
    have hramp : ((p.poll now).backend i).rampPercent = _ := hramp
    omega
  simp [rampMove, hne]

end Moves

/-- The reinstatements and the moves of a run are polls of it. -/
theorem poll_mem_of_last {E : Pool → Op → Option Nat}
    (hE : ∀ p op t, E p op = some t → op = .poll t) {p₀ : Pool} {ops : List Op} {t : Nat}
    (h : poolSystem.last E p₀ ops = some t) : .poll t ∈ ops := by
  induction ops using List.reverseRecOn with
  | nil => simp [System.last, System.events] at h
  | append_singleton ops op ih =>
    rw [System.last_concat] at h
    cases he : E (poolSystem.exec p₀ ops) op with
    | none =>
      rw [he] at h
      exact List.mem_append_left _ (ih h)
    | some s =>
      rw [he] at h
      obtain rfl := Option.some.inj h
      simp [hE _ _ _ he]

theorem eq_poll_of_rampMove (i : Nat) (p : Pool) (op : Op) (t : Nat)
    (h : rampMove i p op = some t) : op = .poll t := by
  cases op with
  | poll now =>
    simp only [rampMove] at h
    split_ifs at h
    rw [Option.some.inj h]
  | _ => exact absurd h (by simp [rampMove])

/-! ## A run with one configuration -/

/-- What the ramp windows since a reinstatement at `t₀` allow at `t`. -/
def rampBound (cfg : EwmaConfig) (t₀ t : Nat) : Nat :=
  min 100 (cfg.reinstateRamp * 2 ^ ((t - t₀) / cfg.rampWindowMs))

theorem rampBound_mono (cfg : EwmaConfig) (t₀ : Nat) {s t : Nat} (h : s ≤ t) :
    rampBound cfg t₀ s ≤ rampBound cfg t₀ t := by
  have hdiv : (s - t₀) / cfg.rampWindowMs ≤ (t - t₀) / cfg.rampWindowMs :=
    Nat.div_le_div_right (Nat.sub_le_sub_right h t₀)
  exact min_le_min_left 100
    (Nat.mul_le_mul_left _ (Nat.pow_le_pow_right Nat.zero_lt_two hdiv))

/-- A ramp window later there is room for a doubling. -/
theorem double_le_rampBound {cfg : EwmaConfig} (hW : 0 < cfg.rampWindowMs) {t₀ s t r : Nat}
    (hr : r ≤ rampBound cfg t₀ s) (hs : t₀ ≤ s) (ht : cfg.rampWindowMs ≤ t - s) :
    min (2 * r) 100 ≤ rampBound cfg t₀ t := by
  have hdiv : (s - t₀) / cfg.rampWindowMs + 1 ≤ (t - t₀) / cfg.rampWindowMs := by
    rw [← Nat.add_div_right _ hW]
    exact Nat.div_le_div_right (by omega)
  have hpow : 2 * (cfg.reinstateRamp * 2 ^ ((s - t₀) / cfg.rampWindowMs)) ≤
      cfg.reinstateRamp * 2 ^ ((t - t₀) / cfg.rampWindowMs) := by
    rw [Nat.mul_left_comm, Nat.mul_comm 2, ← Nat.pow_succ]
    exact Nat.mul_le_mul_left _ (Nat.pow_le_pow_right Nat.zero_lt_two hdiv)
  unfold rampBound at *
  omega

/-- The ramp of backend `i` after a run. -/
structure Ramped (cfg : EwmaConfig) (i : Nat) (p₀ : Pool) (ops : List Op) (p : Pool) :
    Prop where
  pos : 1 ≤ (p.backend i).rampPercent
  le : (p.backend i).rampPercent ≤ 100
  last : (p.backend i).lastRampStep = poolSystem.last (rampMove i) p₀ ops
  full : poolSystem.last (reinstateTime i) p₀ ops = none → (p.backend i).rampPercent = 100
  bound : ∀ t₀, poolSystem.last (reinstateTime i) p₀ ops = some t₀ →
    ∃ s, (p.backend i).lastRampStep = some s ∧ t₀ ≤ s ∧
      (p.backend i).rampPercent ≤ rampBound cfg t₀ s

theorem ramped_apply {cfg : EwmaConfig} (hW : 0 < cfg.rampWindowMs) {i : Nat} {p₀ : Pool}
    {ops : List Op} (he : (poolSystem.exec p₀ ops).ewma = some cfg)
    (h : Ramped cfg i p₀ ops (poolSystem.exec p₀ ops)) {op : Op}
    (hok : (poolSystem.exec p₀ ops).Accepts op) :
    Ramped cfg i p₀ (ops ++ [op]) ((poolSystem.exec p₀ ops).apply op) := by
  obtain ⟨hpos, hle, hlast, hfull, hbound⟩ := h
  rcases rampStep he hok i with ⟨hop, hre, hlast', hpos', hle', hramp⟩ |
    ⟨hre, _, hramp, hlast'⟩ | @⟨now, hop, hre, hu, hlt, hdue, hramp, hlast'⟩
  · have hmove := rampMove_of_reinstates hop hre
    refine ⟨hpos', hle', ?_, ?_, ?_⟩
    · rw [System.last_concat, hmove, hlast']
      rfl
    · rw [System.last_concat, hre]
      simp
    · rw [System.last_concat, hre]
      intro t₀ ht
      obtain rfl := Option.some.inj ht
      refine ⟨_, hlast', le_refl _, ?_⟩
      rw [hramp hW]
      simp [rampBound, EwmaConfig.reinstateRamp]
  · have hmove := rampMove_of_stays hre hramp
    refine ⟨by rw [hramp]; exact hpos, by rw [hramp]; exact hle, ?_, ?_, ?_⟩
    · rw [System.last_concat, hmove, hlast', hlast]
      rfl
    · rw [System.last_concat, hre, hramp]
      exact hfull
    · rw [System.last_concat, hre, hramp, hlast']
      exact hbound
  · have hmove := rampMove_of_doubles hop hpos hlt hramp
    refine ⟨by rw [hramp]; omega, by rw [hramp]; exact Nat.min_le_right _ _, ?_, ?_, ?_⟩
    · rw [System.last_concat, hmove, hlast']
      rfl
    · rw [System.last_concat, hre]
      intro hnone
      exact absurd (hfull hnone) (Nat.ne_of_lt hlt)
    · rw [System.last_concat, hre]
      intro t₀ ht
      obtain ⟨s, hs, hle₀, hr⟩ := hbound t₀ ht
      have hwin : cfg.rampWindowMs ≤ now - s := by simpa [Backend.rampDue, hs] using hdue
      refine ⟨_, hlast', by omega, ?_⟩
      rw [hramp]
      exact double_le_rampBound hW hr hle₀ hwin

/-- The run lemma. -/
theorem ramped_exec {cfg : EwmaConfig} (hW : 0 < cfg.rampWindowMs) {p₀ : Pool}
    (h₀ : ∃ name strategy health, p₀ = (Pool.new name strategy health).enableEwma cfg)
    {ops : List Op} (hv : poolSystem.Valid p₀ ops)
    (hfix : ∀ op ∈ ops, ∀ c, op ≠ .enableEwma c) (i : Nat) :
    (poolSystem.exec p₀ ops).ewma = some cfg ∧ Ramped cfg i p₀ ops (poolSystem.exec p₀ ops) := by
  refine System.Always.history (M := poolSystem)
    (I := fun ops p => p.ewma = some cfg ∧ Ramped cfg i p₀ ops p) ?_ ?_
    (System.Always.and hv (System.Always.of_forall p₀ hfix))
  · obtain ⟨name, strategy, health, rfl⟩ := h₀
    have hb : ((Pool.new name strategy health).enableEwma cfg).backend i = default := rfl
    refine ⟨rfl, ⟨?_, ?_, ?_, fun _ => ?_, fun t₀ h => ?_⟩⟩
    · rw [hb]
      decide
    · rw [hb]
      decide
    · rw [hb]
      rfl
    · rw [hb]
      rfl
    · exact absurd h (by simp [System.last, System.events])
  · intro ops op _ hop hinv
    obtain ⟨hok, hne⟩ := hop
    obtain ⟨he, hr⟩ := hinv
    exact ⟨(ewma_apply _ op hne).trans he, ramped_apply hW he hr hok⟩

/-- The time of a poll that finds backend `i` not ejected a ramp window or more after the
last move. -/
def rampTurn (cfg : EwmaConfig) (i : Nat) (p : Pool) : Op → Option Nat
  | .poll now =>
    if (p.backend i).isEjected now = false ∧
        ∃ s ∈ (p.backend i).lastRampStep, cfg.rampWindowMs ≤ now - s then some now
    else none
  | _ => none

/-- A turn doubles a percent below 100. -/
theorem min_double_le_of_rampTurn {cfg : EwmaConfig} {i : Nat} {p : Pool} {op : Op}
    (h : RampStep cfg i p op) (hre : reinstateTime i p op = none)
    (hturn : rampTurn cfg i p op ≠ none) :
    min (2 * (p.backend i).rampPercent) 100 ≤ ((p.apply op).backend i).rampPercent := by
  rcases h with ⟨_, hre', _, _, _, _⟩ | ⟨_, hwhy, hramp, _⟩ | ⟨_, _, _, _, _, hramp, _⟩
  · exact absurd (hre.symm.trans hre') (by simp)
  · cases op with
    | poll now =>
      simp only [rampTurn, Option.mem_def, ne_eq, ite_eq_right_iff, reduceCtorEq, imp_false,
        not_not] at hturn
      obtain ⟨hact, s, hs, hle⟩ := hturn
      have hdue : (p.backend i).rampDue cfg now = true := by simpa [Backend.rampDue, hs] using hle
      rcases hwhy now rfl with hej | hfull | hnot
      · exact absurd (hact.symm.trans hej) (by decide)
      · rw [hramp]
        omega
      · exact absurd (hdue.symm.trans hnot) (by decide)
    | _ => exact absurd rfl hturn
  · exact hramp.ge

/-- Without a reinstatement the percent does not fall. -/
theorem rampPercent_le_apply {cfg : EwmaConfig} {i : Nat} {p : Pool} {op : Op}
    (h : RampStep cfg i p op) (hre : reinstateTime i p op = none) :
    (p.backend i).rampPercent ≤ ((p.apply op).backend i).rampPercent := by
  rcases h with ⟨_, hre', _, _, _, _⟩ | ⟨_, _, hramp, _⟩ | ⟨_, _, _, hlt, _, hramp, _⟩
  · exact absurd (hre.symm.trans hre') (by simp)
  · exact hramp.ge
  · rw [hramp]
    omega

/-- After a number of turns without a reinstatement the percent has doubled as often. -/
theorem min_pow_le_of_turns {cfg : EwmaConfig} {i : Nat} {p : Pool} (he : p.ewma = some cfg)
    {ops : List Op} (hv : poolSystem.Valid p ops)
    (hfix : ∀ op ∈ ops, ∀ c, op ≠ .enableEwma c)
    (hre : poolSystem.events (reinstateTime i) p ops = []) :
    min 100 ((p.backend i).rampPercent *
        2 ^ (poolSystem.events (rampTurn cfg i) p ops).length) ≤
      ((poolSystem.exec p ops).backend i).rampPercent := by
  induction ops generalizing p with
  | nil => simp [System.events]
  | cons op ops ih =>
    have hfix' : ∀ o ∈ ops, ∀ c, o ≠ .enableEwma c :=
      fun o ho => hfix o (List.mem_cons_of_mem _ ho)
    have hewma : (p.apply op).ewma = some cfg :=
      (ewma_apply p op (hfix op List.mem_cons_self)).trans he
    obtain ⟨hnone, hrest⟩ := List.append_eq_nil_iff.mp hre
    have hstep := rampStep he hv.1 i
    have hre' : reinstateTime i p op = none := by
      cases hc : reinstateTime i p op with
      | none => rfl
      | some t => simp [hc] at hnone
    have hgoal := ih hewma hv.2 hfix' hrest
    rw [System.exec_cons]
    refine le_trans ?_ hgoal
    have hpow : 1 ≤ 2 ^ (poolSystem.events (rampTurn cfg i) (p.apply op) ops).length :=
      Nat.one_le_two_pow
    cases hturn : rampTurn cfg i p op with
    | none =>
      have hlen : poolSystem.events (rampTurn cfg i) p (op :: ops) =
          poolSystem.events (rampTurn cfg i) (p.apply op) ops := by
        simp [System.events, hturn, poolSystem]
      rw [hlen]
      exact min_le_min_left 100 (Nat.mul_le_mul_right _ (rampPercent_le_apply hstep hre'))
    | some t =>
      have hlen : (poolSystem.events (rampTurn cfg i) p (op :: ops)).length =
          (poolSystem.events (rampTurn cfg i) (p.apply op) ops).length + 1 := by
        simp [System.events, hturn, poolSystem]
      have hdouble := min_double_le_of_rampTurn hstep hre' (by simp [hturn])
      rw [hlen, Nat.pow_succ]
      generalize 2 ^ (poolSystem.events (rampTurn cfg i) (p.apply op) ops).length = x at hpow ⊢
      generalize ((p.apply op).backend i).rampPercent = r' at hdouble ⊢
      have hmul : (p.backend i).rampPercent * (x * 2) = 2 * (p.backend i).rampPercent * x := by
        rw [Nat.mul_comm x, ← Nat.mul_assoc, Nat.mul_comm _ 2]
      rw [hmul]
      rcases Nat.lt_or_ge r' 100 with hlt | hge
      · exact min_le_min_left 100 (Nat.mul_le_mul_right _ (by omega))
      · have hfull : 100 ≤ r' * x := hge.trans (Nat.le_mul_of_pos_right r' hpow)
        omega

/-- A reinstated backend ramps no faster than the configuration says, in every run with
one configuration of the latency layer from the start.

* The percent of a backend is between 1 and 100, and 100 before its first reinstatement.
* Since the last reinstatement it has doubled at most once for each ramp window.
* Without a reinstatement it does not fall, and a call that is no poll, or a poll that
  finds the backend ejected, does not change it.
* Seven polls that find the backend not ejected, each a ramp window or more after the
  last move, take it from the reinstatement to 100. -/
theorem ramp_bounded {cfg : EwmaConfig} (hW : 0 < cfg.rampWindowMs) {p₀ : Pool}
    (h₀ : ∃ name strategy health, p₀ = (Pool.new name strategy health).enableEwma cfg)
    {ops : List Op} (hv : poolSystem.Valid p₀ ops)
    (hfix : ∀ op ∈ ops, ∀ c, op ≠ .enableEwma c) (i : Nat) :
    let ramp := fun os => ((poolSystem.exec p₀ os).backend i).rampPercent
    (1 ≤ ramp ops ∧ ramp ops ≤ 100 ∧
      (poolSystem.last (reinstateTime i) p₀ ops = none → ramp ops = 100)) ∧
    (∀ t₀, poolSystem.last (reinstateTime i) p₀ ops = some t₀ →
      ∀ t, (∀ op ∈ ops, ∀ s, op.time = some s → s ≤ t) →
        ramp ops ≤ min 100 (cfg.reinstateRamp * 2 ^ ((t - t₀) / cfg.rampWindowMs))) ∧
    (∀ pre op post, ops = pre ++ op :: post →
      reinstateTime i (poolSystem.exec p₀ pre) op = none →
      ramp pre ≤ ramp (pre ++ [op]) ∧
      ((∀ now, op = .poll now →
          ((poolSystem.exec p₀ pre).backend i).isEjected now = true) →
        ramp (pre ++ [op]) = ramp pre)) ∧
    ((poolSystem.exec p₀ ops).backend i).lastRampStep = poolSystem.last (rampMove i) p₀ ops ∧
    ∀ pre t₀ mid, ops = pre ++ .poll t₀ :: mid →
      reinstateTime i (poolSystem.exec p₀ pre) (.poll t₀) = some t₀ →
      poolSystem.events (reinstateTime i) (poolSystem.exec p₀ (pre ++ [.poll t₀])) mid = [] →
      7 ≤ (poolSystem.events (rampTurn cfg i) (poolSystem.exec p₀ (pre ++ [.poll t₀]))
        mid).length →
      ramp ops = 100 := by
  intro ramp
  obtain ⟨_, hr⟩ := ramped_exec hW h₀ hv hfix i
  refine ⟨⟨hr.pos, hr.le, hr.full⟩, ?_, ?_, hr.last, ?_⟩
  · intro t₀ ht t htime
    obtain ⟨s, hs, _, hle⟩ := hr.bound t₀ ht
    rw [hr.last] at hs
    have hmem := poll_mem_of_last (fun p op t => eq_poll_of_rampMove i p op t) hs
    exact hle.trans (rampBound_mono cfg t₀ (htime _ hmem s rfl))
  · intro pre op post heq hre
    subst heq
    obtain ⟨he, _⟩ := ramped_exec hW h₀ hv.left
      (fun o ho => hfix o (List.mem_append_left _ ho)) i
    have hstep := rampStep he hv.right.1 i
    simp only [ramp, exec_concat]
    refine ⟨rampPercent_le_apply hstep hre, fun hej => ?_⟩
    rcases hstep with ⟨_, hre', _, _, _, _⟩ | ⟨_, _, hramp, _⟩ | ⟨hop, _, hu, _, _, _, _⟩
    · exact absurd (hre.symm.trans hre') (by simp)
    · exact hramp
    · exact absurd (hej _ hop) (by simp [Backend.isEjected, hu])
  · intro pre t₀ mid heq hre hnone hturns
    subst heq
    have hsplit : pre ++ .poll t₀ :: mid = (pre ++ [.poll t₀]) ++ mid := by simp
    have hv' := hv
    rw [hsplit] at hv'
    obtain ⟨he, hr'⟩ := ramped_exec hW h₀ hv'.left
      (fun o ho => hfix o (by rw [hsplit]; exact List.mem_append_left _ ho)) i
    have hpow := min_pow_le_of_turns he hv'.right (fun o ho => hfix o (by simp [ho])) hnone
    rw [← System.exec_append, ← hsplit] at hpow
    have hbig : 100 ≤ ((poolSystem.exec p₀ (pre ++ [.poll t₀])).backend i).rampPercent *
        2 ^ (poolSystem.events (rampTurn cfg i) (poolSystem.exec p₀ (pre ++ [.poll t₀]))
          mid).length := by
      have h128 : 2 ^ 7 ≤ 2 ^ (poolSystem.events (rampTurn cfg i)
          (poolSystem.exec p₀ (pre ++ [.poll t₀])) mid).length :=
        Nat.pow_le_pow_right Nat.zero_lt_two hturns
      exact (by omega : 100 ≤ 2 ^ _).trans (Nat.le_mul_of_pos_left _ hr'.pos)
    rw [Nat.min_eq_left hbig] at hpow
    exact Nat.le_antisymm hr.le hpow

/-- The slow backend is ejected at 12 for its latency and reinstated at 17.  Ten
milliseconds later it has at most twice the percent it came back with. -/
theorem ramp_bounded_slow :
    ((poolSystem.exec shortWindowPool (slowCalls ++ [.poll 12, .poll 17, .poll 27])).backend
      0).rampPercent ≤ min 100 (shortWindow.reinstateRamp * 2 ^ ((27 - 17) / 10)) := by
  have hv : poolSystem.Valid shortWindowPool (slowCalls ++ [.poll 12, .poll 17, .poll 27]) :=
    (System.valid_append_iff _ _ _ _).mpr ⟨valid_slowCalls, trivial, trivial, trivial, trivial⟩
  refine (ramp_bounded (by decide) ⟨"api", .roundRobin, _, rfl⟩ hv (by simp [slowCalls]) 0).2.1
    17 (by decide) 27 ?_
  simp [slowCalls, Op.time]

/-! ## Windows without an ejection -/

/-- Since the last move of the ramp of backend `i` no ejection of it has begun. -/
structure ClearSince (i : Nat) (p₀ : Pool) (ops : List Op) (p : Pool) (s : Nat)
    (a b : List Op) : Prop where
  split : ops = a ++ .poll s :: b
  move : rampMove i (poolSystem.exec p₀ a) (.poll s) = some s
  latest : poolSystem.events (rampMove i) (poolSystem.exec p₀ (a ++ [.poll s])) b = []
  ejections : (p.backend i).ejections = ((poolSystem.exec p₀ a).backend i).ejections
  ewmaEjections :
    (p.backend i).ewmaEjections = ((poolSystem.exec p₀ a).backend i).ewmaEjections

/-- The ramp of backend `i` after a run with any configurations of the latency layer. -/
structure Ramping (i : Nat) (p₀ : Pool) (ops : List Op) (p : Pool) : Prop where
  pos : 1 ≤ (p.backend i).rampPercent
  full : (p.backend i).lastRampStep = none → 100 ≤ (p.backend i).rampPercent
  clear : (p.backend i).ejectedUntil = none → ∀ s, (p.backend i).lastRampStep = some s →
    ∃ a b, ClearSince i p₀ ops p s a b

/-- A poll that ends without an ejection has begun none. -/
theorem counts_poll {p : Pool} {i now : Nat} (hi : i < p.backends.length)
    (hu : ((p.poll now).backend i).ejectedUntil = none) :
    ((p.poll now).backend i).ejections = (p.backend i).ejections ∧
      ((p.poll now).backend i).ewmaEjections = (p.backend i).ewmaEjections ∧
      (p.backend i).isEjected now = false := by
  have heff : (p.poll now).backend i = (p.backend i).poll p.ewma p.threshold now :=
    backend_apply_of_lt hi (.poll now)
  rw [heff] at hu ⊢
  refine ⟨Backend.poll_ejections _ _ _ _, ?_⟩
  rcases (p.backend i).ejectedUntil_poll_cases p.ewma p.threshold now with
    ⟨hexp, hcount⟩ | ⟨u, hu', _⟩
  · refine ⟨hcount, Bool.eq_false_iff.mpr fun hact => ?_⟩
    rw [hu, if_pos hact] at hexp
    simp [Backend.isEjected, ← hexp] at hact
  · exact absurd (hu.symm.trans hu') (by simp)

/-- A call that reinstates no backend and ends without an ejection finds none and begins
none. -/
theorem counts_of_no_reinstatement {p : Pool} {op : Op} {i : Nat}
    (hi : i < p.backends.length) (hre : reinstateTime i p op = none)
    (hu : ((p.apply op).backend i).ejectedUntil = none) :
    (p.backend i).ejectedUntil = none ∧
      ((p.apply op).backend i).ejections = (p.backend i).ejections ∧
      ((p.apply op).backend i).ewmaEjections = (p.backend i).ewmaEjections := by
  have heq := backend_apply_of_lt hi op
  rcases p.effect_ejection_cases op i (p.backend i) with ⟨now, rfl⟩ | ⟨_, hk⟩ |
    ⟨now, rfl, _, hk⟩
  · obtain ⟨hn, hm, hact⟩ := counts_poll hi hu
    refine ⟨?_, hn, hm⟩
    cases hold : (p.backend i).ejectedUntil with
    | none => rfl
    | some u =>
      -- an ejection that is over at this poll ends in a reinstatement
      have hle : u ≤ now := by simpa [Backend.isEjected, hold] using hact
      simp [reinstateTime, hold, hle] at hre
  · rw [← heq] at hk
    exact ⟨(congrArg Backend.Ejection.ejectedUntil hk).symm.trans hu,
      congrArg Backend.Ejection.ejections hk, congrArg Backend.Ejection.ewmaEjections hk⟩
  · rw [← heq] at hk
    exact absurd ((congrArg Backend.Ejection.ejectedUntil hk).symm.trans hu) (by simp)

/-- A call that neither moves the ramp nor begins an ejection. -/
theorem ClearSince.concat {i s : Nat} {p₀ : Pool} {ops a b : List Op}
    (h : ClearSince i p₀ ops (poolSystem.exec p₀ ops) s a b) {op : Op}
    (hmove : rampMove i (poolSystem.exec p₀ ops) op = none)
    (hn : (((poolSystem.exec p₀ ops).apply op).backend i).ejections =
      ((poolSystem.exec p₀ ops).backend i).ejections)
    (hm : (((poolSystem.exec p₀ ops).apply op).backend i).ewmaEjections =
      ((poolSystem.exec p₀ ops).backend i).ewmaEjections) :
    ClearSince i p₀ (ops ++ [op]) ((poolSystem.exec p₀ ops).apply op) s a (b ++ [op]) := by
  refine ⟨by rw [h.split]; simp, h.move, ?_, hn.trans h.ejections, hm.trans h.ewmaEjections⟩
  have hsplit : ops = (a ++ [.poll s]) ++ b := by
    rw [h.split]
    simp
  rw [hsplit, System.exec_append] at hmove
  rw [System.events_concat, h.latest, hmove]
  rfl

theorem ramping_apply {cfg : EwmaConfig} {i : Nat} {p₀ : Pool} {ops : List Op}
    (he : (poolSystem.exec p₀ ops).ewma = some cfg)
    (h : Ramping i p₀ ops (poolSystem.exec p₀ ops)) {op : Op}
    (hok : (poolSystem.exec p₀ ops).Accepts op) :
    Ramping i p₀ (ops ++ [op]) ((poolSystem.exec p₀ ops).apply op) := by
  obtain ⟨hpos, hfull, hclear⟩ := h
  -- a poll that moves the ramp begins a new window
  have hnew : ∀ {now}, op = .poll now → i < (poolSystem.exec p₀ ops).backends.length →
      rampMove i (poolSystem.exec p₀ ops) op = some now →
      (((poolSystem.exec p₀ ops).apply op).backend i).ejectedUntil = none →
      ClearSince i p₀ (ops ++ [op]) ((poolSystem.exec p₀ ops).apply op) now ops [] := by
    intro now hop hi hmove hu
    subst hop
    obtain ⟨hn, hm, _⟩ := counts_poll hi hu
    exact ⟨rfl, hmove, rfl, hn, hm⟩
  rcases rampStep he hok i with @⟨now, hop, hre, hlast, hpos', _, _⟩ |
    ⟨hre, _, hramp, hlast⟩ | @⟨now, hop, hre, hu, hlt, hdue, hramp, hlast⟩
  · refine ⟨hpos', fun hnone => absurd (hlast.symm.trans hnone) (by simp),
      fun hu s hs => ?_⟩
    obtain rfl := Option.some.inj (hlast.symm.trans hs)
    exact ⟨ops, [], hnew hop (lt_length_of_reinstates hre) (rampMove_of_reinstates hop hre) hu⟩
  · have hmove := rampMove_of_stays hre hramp
    refine ⟨by rw [hramp]; exact hpos, by rw [hramp, hlast]; exact hfull, fun hu s hs => ?_⟩
    rw [hlast] at hs
    have hi : i < (poolSystem.exec p₀ ops).backends.length :=
      lt_length_of_field_ne Backend.lastRampStep (by rw [hs]; exact Option.some_ne_none s)
    obtain ⟨hnone, hn, hm⟩ := counts_of_no_reinstatement hi hre hu
    obtain ⟨a, b, hc⟩ := hclear hnone s hs
    exact ⟨a, b ++ [op], hc.concat hmove hn hm⟩
  · refine ⟨by rw [hramp]; omega, fun hnone => absurd (hlast.symm.trans hnone) (by simp),
      fun hu' s hs => ?_⟩
    obtain rfl := Option.some.inj (hlast.symm.trans hs)
    have hi : i < (poolSystem.exec p₀ ops).backends.length :=
      lt_length_of_field_ne Backend.rampPercent (Nat.ne_of_lt hlt)
    exact ⟨ops, [], hnew hop hi (rampMove_of_doubles hop hpos hlt hramp) hu'⟩

/-- No call switches the latency layer off. -/
theorem ewma_none_of_apply {p : Pool} (op : Op) (h : (p.apply op).ewma = none) :
    p.ewma = none := by
  by_cases hop : ∃ cfg, op = .enableEwma cfg
  · obtain ⟨cfg, rfl⟩ := hop
    exact absurd h (by simp [apply, enableEwma])
  · rwa [ewma_apply p op fun cfg hcfg => hop ⟨cfg, hcfg⟩] at h

/-- Without the latency layer a poll leaves the ramp. -/
theorem ramp_apply_of_none {p : Pool} (he : p.ewma = none) {op : Op} (hok : p.Accepts op)
    (i : Nat) :
    ((p.apply op).backend i).rampPercent = (p.backend i).rampPercent ∧
      ((p.apply op).backend i).lastRampStep = (p.backend i).lastRampStep := by
  rcases backend_apply_cases hok i with ⟨_, heq⟩ | ⟨hge, health, cfg, hb⟩
  · cases hpoll : op.pollTime with
    | none =>
      rw [heq]
      exact p.effect_ramp hpoll i (p.backend i)
    | some now =>
      obtain rfl := Op.eq_poll_of_pollTime hpoll
      have heff : (p.apply (.poll now)).backend i =
          { p.backend i with breaker := (p.backend i).breaker.poll now }.reinstate none now := by
        rw [heq]
        simp only [effect, Backend.poll, he]
      rw [heff]
      unfold Backend.reinstate
      split
      · exact ⟨rfl, rfl⟩
      · split_ifs <;> exact ⟨rfl, rfl⟩
  · rw [hb, backend_of_ge hge]
    exact ⟨rfl, rfl⟩

/-- The run lemma.  The latency layer may be enabled at any point of the run: until then
the backend has its full weight and no ramp has begun. -/
theorem ramping_exec {p₀ : Pool} (h₀ : ∃ name strategy health, p₀ = Pool.new name strategy health)
    {ops : List Op} (hv : poolSystem.Valid p₀ ops) (i : Nat) :
    ((poolSystem.exec p₀ ops).ewma = none →
      ((poolSystem.exec p₀ ops).backend i).lastRampStep = none) ∧
      Ramping i p₀ ops (poolSystem.exec p₀ ops) := by
  refine System.Always.history (M := poolSystem)
    (I := fun ops p => (p.ewma = none → (p.backend i).lastRampStep = none) ∧
      Ramping i p₀ ops p) ?_ ?_ hv
  · obtain ⟨name, strategy, health, rfl⟩ := h₀
    have hb : (Pool.new name strategy health).backend i = default := rfl
    refine ⟨fun _ => by rw [hb]; rfl, ⟨?_, fun _ => ?_, fun _ s hs => ?_⟩⟩
    · rw [hb]
      decide
    · rw [hb]
      decide
    · rw [hb] at hs
      exact absurd hs (by simp [default, Backend.new])
  · intro ops op _ hok hinv
    obtain ⟨hnone, hr⟩ := hinv
    cases he : (poolSystem.exec p₀ ops).ewma with
    | some cfg =>
      refine ⟨fun hoff => ?_, ramping_apply he hr hok⟩
      have hold := ewma_none_of_apply op hoff
      exact absurd (hold.symm.trans he) (by simp)
    | none =>
      obtain ⟨hramp, hlast⟩ := ramp_apply_of_none he hok i
      have hlast' := hlast.trans (hnone he)
      refine ⟨fun _ => hlast', ⟨hramp.ge.trans' hr.pos, fun _ => ?_, fun _ s hs => ?_⟩⟩
      · exact hramp.ge.trans' (hr.full (hnone he))
      · exact absurd (hlast'.symm.trans hs) (by simp)

/-- The ramp rises only across windows without an ejection, in every run of a pool, with
the latency layer enabled at any point of it.  A poll that changes the percent of a backend
and does not reinstate it doubles the percent.  It finds no ejection; the last move of the
ramp, a doubling or the reinstatement, is a ramp window ago or more; and from that poll on
no ejection of the backend has begun, for failures or for latency.  A poll that reinstates
the backend doubles the percent in the same pass only if the ramp window is empty. -/
theorem ramp_rises_clear {p₀ : Pool}
    (h₀ : ∃ name strategy health, p₀ = Pool.new name strategy health) {ops : List Op}
    (hv : poolSystem.Valid p₀ ops) (i : Nat) :
    ∀ pre t post, ops = pre ++ .poll t :: post →
      let p := poolSystem.exec p₀ pre
      (reinstateTime i p (.poll t) = none →
        ((p.poll t).backend i).rampPercent ≠ (p.backend i).rampPercent →
        ((p.poll t).backend i).rampPercent = min (2 * (p.backend i).rampPercent) 100 ∧
        (p.backend i).ejectedUntil = none ∧
        ∃ cfg a s b, p.ewma = some cfg ∧ pre = a ++ .poll s :: b ∧
          rampMove i (poolSystem.exec p₀ a) (.poll s) = some s ∧
          poolSystem.events (rampMove i) (poolSystem.exec p₀ (a ++ [.poll s])) b = [] ∧
          cfg.rampWindowMs ≤ t - s ∧
          (p.backend i).ejections = ((poolSystem.exec p₀ a).backend i).ejections ∧
          (p.backend i).ewmaEjections =
            ((poolSystem.exec p₀ a).backend i).ewmaEjections) ∧
      (∀ cfg, p.ewma = some cfg → reinstateTime i p (.poll t) ≠ none →
        ((p.poll t).backend i).rampPercent ≠ cfg.reinstateRamp → cfg.rampWindowMs = 0) := by
  intro pre t post heq p
  subst heq
  have hok : p.Accepts (.poll t) := hv.right.1
  refine ⟨fun hre hne => ?_, fun cfg he hre hne => ?_⟩
  · obtain ⟨_, hr⟩ := ramping_exec h₀ hv.left i
    obtain ⟨cfg, he⟩ : ∃ cfg, p.ewma = some cfg := by
      cases he : p.ewma with
      | none => exact absurd (ramp_apply_of_none he hok i).1 hne
      | some cfg => exact ⟨cfg, rfl⟩
    rcases rampStep he hok i with ⟨_, hre', _, _, _, _⟩ | ⟨_, _, hramp, _⟩ |
      @⟨now, hop, _, hu, hlt, hdue, hramp, _⟩
    · exact absurd (hre.symm.trans hre') (by simp)
    · exact absurd hramp hne
    · obtain rfl := Op.poll.inj hop
      obtain ⟨s, hs⟩ : ∃ s, (p.backend i).lastRampStep = some s := by
        cases hs : (p.backend i).lastRampStep with
        | none => exact absurd (hr.full hs) (Nat.not_le_of_lt hlt)
        | some s => exact ⟨s, rfl⟩
      have hwin : cfg.rampWindowMs ≤ t - s := by
        have hdue : (p.backend i).rampDue cfg t = true := hdue
        simpa [Backend.rampDue, hs] using hdue
      obtain ⟨a, b, hc⟩ := hr.clear hu s hs
      exact ⟨hramp, hu, cfg, a, s, b, he, hc.split, hc.move, hc.latest, hwin, hc.ejections,
        hc.ewmaEjections⟩
  · rcases rampStep he hok i with ⟨_, _, _, _, _, hramp⟩ | ⟨hre', _, _, _⟩ |
      ⟨_, hre', _, _, _, _, _⟩
    · by_contra hpos
      exact hne (hramp (Nat.pos_of_ne_zero hpos))
    · exact absurd hre' hre
    · exact absurd hre' hre

/-- The slow calls on a pool that does not eject after one failure.  The slow backend is
ejected at 12 and reinstated at 17, and a call on it fails at 20. -/
def uncleanCalls : List Op :=
  .enableEwma shortWindow :: slowCalls ++ [.poll 12, .poll 17, .recordFailure 0 20]

/-- A new pool with the default health configuration. -/
def uncleanPool : Pool := Pool.new "api" .roundRobin .default

theorem valid_uncleanCalls : poolSystem.Valid uncleanPool (uncleanCalls ++ [.poll 27]) :=
  ⟨trivial, Backend.fresh_new _ _ _ _, Backend.fresh_new _ _ _ _, Nat.zero_lt_succ 1,
    Nat.one_lt_succ_succ 0, trivial, Nat.zero_lt_succ 1, trivial, trivial, Nat.zero_lt_succ 1,
    trivial, trivial⟩

/-- The poll at 27 doubles the percent of the slow backend. -/
theorem ramp_rises_clear_unclean :
    (((poolSystem.exec uncleanPool uncleanCalls).poll 27).backend 0).rampPercent =
      min (2 * ((poolSystem.exec uncleanPool uncleanCalls).backend 0).rampPercent) 100 ∧
    ((poolSystem.exec uncleanPool uncleanCalls).backend 0).ejectedUntil = none := by
  have h := (ramp_rises_clear ⟨_, _, _, rfl⟩ valid_uncleanCalls 0 uncleanCalls 27 [] rfl).1
    (by decide) (by decide)
  exact ⟨h.1, h.2.1⟩

/-- A failure since the reinstatement and an average above the line, at the reinstatement
and at the poll that doubles the percent, do not stop the ramp. -/
theorem ramp_rises_unclean :
    let pre := .enableEwma shortWindow :: slowCalls ++ [.poll 12]
    poolSystem.Valid uncleanPool (uncleanCalls ++ [.poll 27]) ∧
    Nondecreasing Op.time (uncleanCalls ++ [.poll 27]) ∧
    uncleanCalls = pre ++ [.poll 17, .recordFailure 0 20] ∧
    rampMove 0 (poolSystem.exec uncleanPool pre) (.poll 17) = some 17 ∧
    OverAt shortWindow 0 (poolSystem.exec uncleanPool pre) 17 ∧
    OverAt shortWindow 0 (poolSystem.exec uncleanPool uncleanCalls) 27 ∧
    ((poolSystem.exec uncleanPool uncleanCalls).backend 0).rampPercent = 25 ∧
    (((poolSystem.exec uncleanPool uncleanCalls).poll 27).backend 0).rampPercent = 50 :=
  ⟨valid_uncleanCalls, by decide, rfl, by decide, by decide, by decide, by decide, by decide⟩

end Pool

end Echofront
