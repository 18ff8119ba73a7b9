import Echofront.Pool.Latency

/-!
# The average of a run

What the latencies that a run records make of the average of a backend.

* `latencySample` reads the recorded latencies off a run, each with the configuration
  it is folded with, and `effect_average_cases` says that nothing else changes an
  average or a sample count.
* `Spanned` is the invariant of a run: an average is between two of its samples.
* `foldTimes_of_ge` and `foldTimes_of_le` say where the average goes under one latency,
  and `average_exec_const` that the average of a backend goes there in a run.

`ewma_contraction` puts these together.
-/

namespace Echofront

open Lib

/-! ## Many samples of one latency -/

namespace EwmaConfig

variable (cfg : EwmaConfig) {prev : Nat}

/-- A fold is between the average and the sample, and strictly below an average above
the sample. -/
theorem fold_between (h : prev ≤ u64Max) (latencyMs : Nat) :
    min prev (saturatingMul64 latencyMs 1000) ≤ cfg.fold (some prev) latencyMs ∧
    cfg.fold (some prev) latencyMs ≤ max prev (saturatingMul64 latencyMs 1000) ∧
    (1 ≤ cfg.alphaMilli → saturatingMul64 latencyMs 1000 < prev →
      cfg.fold (some prev) latencyMs < prev) := by
  have ha : min cfg.alphaMilli 1000 ≤ 1000 := Nat.min_le_right _ _
  rw [cfg.fold_some h]
  generalize saturatingMul64 latencyMs 1000 = sample
  obtain ⟨hlo, hhi⟩ := blend_within (d := 1000) (by decide) ha
    (⟨Nat.min_le_right prev sample, Nat.le_max_right prev sample⟩)
    (⟨Nat.min_le_left prev sample, Nat.le_max_left prev sample⟩)
  exact ⟨hlo, hhi, fun hpos hlt => blend_lt (by decide) ha (by omega) hlt⟩

/-- From above the average reaches the sample and stays there. -/
theorem foldTimes_of_ge (h : prev ≤ u64Max) {latencyMs : Nat} (hpos : 1 ≤ cfg.alphaMilli)
    (hge : saturatingMul64 latencyMs 1000 ≤ prev) {n : Nat}
    (hn : prev ≤ saturatingMul64 latencyMs 1000 + n) :
    cfg.foldTimes latencyMs n prev = saturatingMul64 latencyMs 1000 := by
  rw [cfg.foldTimes_eq latencyMs n h]
  exact iterate_blend_of_ge (by decide) (Nat.min_le_right _ _) (by omega) hge hn

/-- From below the average rises, does not exceed the sample, and rests only at a gap
that a step no longer moves. -/
theorem foldTimes_of_le (h : prev ≤ u64Max) {latencyMs : Nat}
    (hle : prev ≤ saturatingMul64 latencyMs 1000) (n : Nat) :
    cfg.foldTimes latencyMs n prev ≤ cfg.foldTimes latencyMs (n + 1) prev ∧
    cfg.foldTimes latencyMs (n + 1) prev ≤ saturatingMul64 latencyMs 1000 ∧
    (cfg.foldTimes latencyMs (n + 1) prev = cfg.foldTimes latencyMs n prev ↔
      min cfg.alphaMilli 1000 *
        (saturatingMul64 latencyMs 1000 - cfg.foldTimes latencyMs n prev) < 1000) := by
  have ha : min cfg.alphaMilli 1000 ≤ 1000 := Nat.min_le_right _ _
  rw [cfg.foldTimes_eq latencyMs _ h, cfg.foldTimes_eq latencyMs _ h]
  obtain ⟨hrise, hmax⟩ := iterate_blend_le (d := 1000) (by decide) ha hle n
  refine ⟨hrise, hmax, ?_⟩
  rw [Function.iterate_succ_apply']
  exact blend_eq_self_iff (by decide) ha (hrise.trans hmax)

/-- From below the average comes to a rest. -/
theorem foldTimes_rest (h : prev ≤ u64Max) {latencyMs : Nat}
    (hle : prev ≤ saturatingMul64 latencyMs 1000) {n m : Nat}
    (hn : saturatingMul64 latencyMs 1000 ≤ prev + n) (hm : n ≤ m) :
    cfg.foldTimes latencyMs m prev = cfg.foldTimes latencyMs n prev := by
  obtain ⟨k, rfl⟩ := Nat.exists_eq_add_of_le hm
  induction k with
  | zero => rfl
  | succ k ih =>
    have hgap := iterate_blend_of_le (d := 1000) (a := min cfg.alphaMilli 1000) (by decide)
      (Nat.min_le_right _ _) hle (hn.trans (by omega : prev + n ≤ prev + (n + k)))
    rw [← cfg.foldTimes_eq latencyMs _ h] at hgap
    have hstep := ((cfg.foldTimes_of_le h hle (n + k)).2.2.mpr hgap)
    exact hstep.trans (ih (Nat.le_add_right n k))

end EwmaConfig

/-! ## The samples of a run -/

namespace Pool

/-- The latency that a call records on backend `i`, with the configuration that folds
it. -/
def latencySample (i : Nat) (p : Pool) : Op → Option (EwmaConfig × Nat)
  | .recordSuccessLatency idx _ latencyMs =>
    if idx = i then p.ewma.map (fun cfg => (cfg, latencyMs)) else none
  | _ => none

/-- The sample that a call folds into the average of backend `i`, in milli units. -/
def sampleMilli (i : Nat) (p : Pool) (op : Op) : Option Nat :=
  (latencySample i p op).map (fun s => saturatingMul64 s.2 1000)

theorem latencySample_of_ne {i : Nat} (p : Pool) {op : Op} (h : op.backend ≠ some i) :
    latencySample i p op = none := by
  cases op with
  | recordSuccessLatency idx now latencyMs =>
    have hne : idx ≠ i := by simpa [Op.backend] using h
    simp [latencySample, hne]
  | _ => rfl

/-- A call folds a sample into the average of a backend, or leaves it. -/
theorem effect_average_cases (p : Pool) (op : Op) (i : Nat) (b : Backend) :
    (latencySample i p op = none ∧ (p.effect op i b).latencyEwmaMilli = b.latencyEwmaMilli ∧
      (p.effect op i b).ewmaSamples = b.ewmaSamples) ∨
    ∃ cfg latencyMs, latencySample i p op = some (cfg, latencyMs) ∧
      (p.effect op i b).latencyEwmaMilli = some (cfg.fold b.latencyEwmaMilli latencyMs) ∧
      (p.effect op i b).ewmaSamples = incr32 b.ewmaSamples := by
  have hstep := p.effectStep op i b
  generalize p.effect op i b = b' at hstep ⊢
  cases hstep with
  | polled now =>
    exact Or.inl ⟨rfl, Backend.poll_latencyEwmaMilli _ _ _ _, Backend.poll_ewmaSamples _ _ _ _⟩
  | measured now latencyMs =>
    cases he : p.ewma with
    | none => exact Or.inl ⟨by simp [latencySample, he], rfl, rfl⟩
    | some cfg => exact Or.inr ⟨cfg, latencyMs, by simp [latencySample, he], rfl, rfl⟩
  | other hpoll hne => exact Or.inl ⟨latencySample_of_ne p hne, rfl, rfl⟩
  | _ => exact Or.inl ⟨rfl, rfl, rfl⟩

/-- A new backend has no average, and no call records a latency before it is there. -/
theorem average_apply_cases {p : Pool} {op : Op} (hok : p.Accepts op) (i : Nat) :
    (latencySample i p op = none ∧
      ((p.apply op).backend i).latencyEwmaMilli = (p.backend i).latencyEwmaMilli ∧
      ((p.apply op).backend i).ewmaSamples = (p.backend i).ewmaSamples) ∨
    ∃ cfg latencyMs, latencySample i p op = some (cfg, latencyMs) ∧
      ((p.apply op).backend i).latencyEwmaMilli =
        some (cfg.fold (p.backend i).latencyEwmaMilli latencyMs) ∧
      ((p.apply op).backend i).ewmaSamples = incr32 (p.backend i).ewmaSamples := by
  rcases backend_apply_cases hok i with ⟨_, heq⟩ | ⟨hge, health, bcfg, hb⟩
  · rw [heq]
    exact p.effect_average_cases op i (p.backend i)
  · refine Or.inl ⟨latencySample_of_ne p (backend_ne_of_ge hok hge), ?_⟩
    rw [hb, backend_of_ge hge]
    exact ⟨rfl, rfl⟩

/-- The average of backend `i` is between two of the samples of a run. -/
def Spanned (i : Nat) (p₀ : Pool) (ops : List Op) (p : Pool) : Prop :=
  ∀ e, (p.backend i).latencyEwmaMilli = some e → e ≤ u64Max ∧
    (∃ x ∈ poolSystem.events (sampleMilli i) p₀ ops, x ≤ e) ∧
    ∃ y ∈ poolSystem.events (sampleMilli i) p₀ ops, e ≤ y

theorem spanned_apply {i : Nat} {p₀ : Pool} {ops : List Op}
    (h : Spanned i p₀ ops (poolSystem.exec p₀ ops)) {op : Op}
    (hok : (poolSystem.exec p₀ ops).Accepts op) :
    Spanned i p₀ (ops ++ [op]) ((poolSystem.exec p₀ ops).apply op) := by
  intro e he
  rcases average_apply_cases hok i with ⟨hs, heq, _⟩ | ⟨cfg, latencyMs, hs, heq, _⟩
  · have hevents : poolSystem.events (sampleMilli i) p₀ (ops ++ [op]) =
        poolSystem.events (sampleMilli i) p₀ ops := by
      rw [System.events_append]
      simp [System.events, sampleMilli, hs]
    rw [hevents]
    exact h e (heq.symm.trans he)
  · have hevents : poolSystem.events (sampleMilli i) p₀ (ops ++ [op]) =
        poolSystem.events (sampleMilli i) p₀ ops ++ [saturatingMul64 latencyMs 1000] := by
      rw [System.events_append]
      simp [System.events, sampleMilli, hs]
    rw [hevents]
    have hmax : saturatingMul64 latencyMs 1000 ≤ u64Max := Nat.min_le_right _ _
    have hnew : saturatingMul64 latencyMs 1000 ∈ poolSystem.events (sampleMilli i) p₀ ops ++
        [saturatingMul64 latencyMs 1000] := List.mem_append_right _ (List.mem_singleton_self _)
    obtain rfl := Option.some.inj (heq.symm.trans he)
    cases hprev : ((poolSystem.exec p₀ ops).backend i).latencyEwmaMilli with
    | none =>
      -- the first sample is the average
      exact ⟨hmax, ⟨_, hnew, le_refl _⟩, ⟨_, hnew, le_refl _⟩⟩
    | some prev =>
      obtain ⟨hp, ⟨x, hx, hxle⟩, ⟨y, hy, hyge⟩⟩ := h prev hprev
      obtain ⟨hlo, hhi, _⟩ := cfg.fold_between hp latencyMs
      refine ⟨hhi.trans (Nat.max_le.mpr ⟨hp, hmax⟩), ?_, ?_⟩
      · rcases Nat.le_total prev (saturatingMul64 latencyMs 1000) with hle | hle
        · rw [Nat.min_eq_left hle] at hlo
          exact ⟨x, List.mem_append_left _ hx, hxle.trans hlo⟩
        · rw [Nat.min_eq_right hle] at hlo
          exact ⟨_, hnew, hlo⟩
      · rcases Nat.le_total prev (saturatingMul64 latencyMs 1000) with hle | hle
        · rw [Nat.max_eq_right hle] at hhi
          exact ⟨_, hnew, hhi⟩
        · rw [Nat.max_eq_left hle] at hhi
          exact ⟨y, List.mem_append_left _ hy, hhi.trans hyge⟩

theorem spanned_exec {p₀ : Pool} (h₀ : poolSystem.init p₀) {ops : List Op}
    (hv : poolSystem.Valid p₀ ops) (i : Nat) :
    Spanned i p₀ ops (poolSystem.exec p₀ ops) := by
  refine System.Always.history (M := poolSystem) (I := Spanned i p₀) ?_
    (fun ops op _ hok h => spanned_apply h hok) hv
  obtain ⟨name, strategy, health, rfl⟩ := h₀
  intro e he
  exact absurd he (by simp [Pool.new, backend, default, Backend.new])

/-- In a run that records one latency only on backend `i`, its average is that latency
folded once for each call that records it. -/
theorem average_exec_const {cfg : EwmaConfig} {i latencyMs : Nat} {p : Pool} {prev : Nat}
    (he : p.ewma = some cfg) (hprev : (p.backend i).latencyEwmaMilli = some prev)
    {ops : List Op} (hv : poolSystem.Valid p ops) (hfix : ∀ op ∈ ops, ∀ c, op ≠ .enableEwma c)
    (hconst : ∀ now l, .recordSuccessLatency i now l ∈ ops → l = latencyMs) :
    ((poolSystem.exec p ops).backend i).latencyEwmaMilli =
      some (cfg.foldTimes latencyMs (samplesIn i ops) prev) := by
  induction ops generalizing p prev with
  | nil => exact hprev
  | cons op ops ih =>
    have hfix' : ∀ o ∈ ops, ∀ c, o ≠ .enableEwma c :=
      fun o ho => hfix o (List.mem_cons_of_mem _ ho)
    have hconst' : ∀ now l, .recordSuccessLatency i now l ∈ ops → l = latencyMs :=
      fun now l hl => hconst now l (List.mem_cons_of_mem _ hl)
    have hewma : (p.apply op).ewma = some cfg :=
      (ewma_apply p op (hfix op List.mem_cons_self)).trans he
    have hcount : samplesIn i (op :: ops) = samplesIn i [op] + samplesIn i ops :=
      samplesIn_append i [op] ops
    rcases average_apply_cases hv.1 i with ⟨hs, heq, _⟩ | ⟨c, l, hs, heq, _⟩
    · have hzero : samplesIn i [op] = 0 := by
        cases op with
        | recordSuccessLatency idx now l =>
          have hidx : idx ≠ i := fun h => by simp [latencySample, h, he] at hs
          simp [samplesIn, foldsLatency, hidx]
        | _ => rfl
      rw [hcount, hzero, Nat.zero_add]
      exact ih hewma (heq.trans hprev) hv.2 hfix' hconst'
    · cases op with
      | recordSuccessLatency idx now l' =>
        obtain ⟨rfl, rfl, rfl⟩ : idx = i ∧ cfg = c ∧ l' = l := by
          simpa [latencySample, he] using hs
        obtain rfl := hconst now l' List.mem_cons_self
        have hone : samplesIn idx [.recordSuccessLatency idx now l'] = 1 := by
          simp [samplesIn, foldsLatency]
        rw [hprev] at heq
        rw [hcount, hone, Nat.add_comm 1, EwmaConfig.foldTimes, Function.iterate_succ_apply]
        exact ih hewma heq hv.2 hfix' hconst'
      | _ => exact absurd hs (by simp [latencySample])

/-- The latency average is a contraction without overflow.

* A fold is exact before its conversion to 64 bits, between the average and the
  sample, strictly below an average above the sample, and monotone in both.
* In every run the average of a backend is between two of its samples.
* Under one latency the average reaches the sample from above; from below it rises,
  does not exceed the sample, rests exactly at a gap that a step no longer moves, and
  comes to a rest.  A backend of a run that records one latency goes through these
  averages. -/
theorem ewma_contraction (cfg : EwmaConfig) :
    (∀ prev ≤ u64Max, ∀ latencyMs,
      (min cfg.alphaMilli 1000 * saturatingMul64 latencyMs 1000 +
        (1000 - min cfg.alphaMilli 1000) * prev) / 1000 ≤ u64Max ∧
      min prev (saturatingMul64 latencyMs 1000) ≤ cfg.fold (some prev) latencyMs ∧
      cfg.fold (some prev) latencyMs ≤ max prev (saturatingMul64 latencyMs 1000) ∧
      (1 ≤ cfg.alphaMilli → saturatingMul64 latencyMs 1000 < prev →
        cfg.fold (some prev) latencyMs < prev)) ∧
    (∀ prev prev' latencyMs latencyMs', prev ≤ prev' → latencyMs ≤ latencyMs' →
      cfg.fold (some prev) latencyMs ≤ cfg.fold (some prev') latencyMs') ∧
    (∀ p₀ ops i e, poolSystem.init p₀ → poolSystem.Valid p₀ ops →
      ((poolSystem.exec p₀ ops).backend i).latencyEwmaMilli = some e →
      (∃ x ∈ poolSystem.events (sampleMilli i) p₀ ops, x ≤ e) ∧
      ∃ y ∈ poolSystem.events (sampleMilli i) p₀ ops, e ≤ y) ∧
    (∀ prev ≤ u64Max, ∀ latencyMs, 1 ≤ cfg.alphaMilli →
      saturatingMul64 latencyMs 1000 ≤ prev →
      ∃ n, ∀ m ≥ n, cfg.foldTimes latencyMs m prev = saturatingMul64 latencyMs 1000) ∧
    (∀ prev ≤ u64Max, ∀ latencyMs, prev ≤ saturatingMul64 latencyMs 1000 →
      (∀ n, cfg.foldTimes latencyMs n prev ≤ cfg.foldTimes latencyMs (n + 1) prev ∧
        cfg.foldTimes latencyMs n prev ≤ saturatingMul64 latencyMs 1000 ∧
        (cfg.foldTimes latencyMs (n + 1) prev = cfg.foldTimes latencyMs n prev ↔
          min cfg.alphaMilli 1000 *
            (saturatingMul64 latencyMs 1000 - cfg.foldTimes latencyMs n prev) < 1000)) ∧
      ∃ n, ∀ m ≥ n, cfg.foldTimes latencyMs m prev = cfg.foldTimes latencyMs n prev) ∧
    ∀ p ops i latencyMs prev, p.ewma = some cfg →
      (p.backend i).latencyEwmaMilli = some prev → poolSystem.Valid p ops →
      (∀ op ∈ ops, ∀ c, op ≠ .enableEwma c) →
      (∀ now l, .recordSuccessLatency i now l ∈ ops → l = latencyMs) →
      ((poolSystem.exec p ops).backend i).latencyEwmaMilli =
        some (cfg.foldTimes latencyMs (samplesIn i ops) prev) := by
  refine ⟨fun prev hp latencyMs => ⟨?_, cfg.fold_between hp latencyMs⟩,
    fun _ _ _ _ hp hl => cfg.fold_mono hp hl, ?_, ?_, ?_, ?_⟩
  · have hs : saturatingMul64 latencyMs 1000 ≤ u64Max := Nat.min_le_right _ _
    exact (blend_within (d := 1000) (by decide) (Nat.min_le_right _ _)
      ⟨Nat.zero_le _, hs⟩ ⟨Nat.zero_le _, hp⟩).2
  · intro p₀ ops i e h₀ hv he
    exact (spanned_exec h₀ hv i e he).2
  · intro prev hp latencyMs hpos hge
    exact ⟨prev, fun m hm => cfg.foldTimes_of_ge hp hpos hge (by omega)⟩
  · intro prev hp latencyMs hle
    refine ⟨fun n => ?_, saturatingMul64 latencyMs 1000,
      fun m hm => cfg.foldTimes_rest hp hle (by omega) hm⟩
    obtain ⟨hrise, hmax, hrest⟩ := cfg.foldTimes_of_le hp hle n
    exact ⟨hrise, hrise.trans hmax, hrest⟩
  · intro p ops i latencyMs prev he hprev hv hfix hconst
    exact average_exec_const he hprev hv hfix hconst

end Pool

end Echofront
