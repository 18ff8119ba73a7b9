import Echofront.Pool.Quarantine

/-!
# Uniform latency

Backends that are all about as fast are never ejected for their latency.  With
every latency in `[l, h]` and a factor of at least `h / l`, no average is above the
line, whatever has been rounded and saturated on the way.

* `Uniform` is the invariant: every average is in the interval, in milli units, and
  no window has been opened.
* `Uniform.ewmaMean` and `Uniform.isOver` take it through the mean and the line.
* `uniform_apply` is the step lemma and `uniform_latency_never_ejects` the statement
  about runs.
-/

namespace Echofront

open Lib

namespace Pool

/-- A call of a run with uniform latency: its latency is in the interval, and the
configuration it attaches has a factor for the interval. -/
def KeepsUniform (l h : Nat) : Op → Prop
  | .enableEwma cfg => 1 ≤ cfg.minSamples ∧ 1000 * h ≤ cfg.factorMilli * l
  | .recordSuccessLatency _ _ latencyMs => l ≤ latencyMs ∧ latencyMs ≤ h
  | _ => True

/-- An average of the interval, in milli units. -/
def InInterval (l h e : Nat) : Prop :=
  l ≤ h ∧ saturatingMul64 l 1000 ≤ e ∧ e ≤ saturatingMul64 h 1000

/-- What the calls of such a run keep of one backend. -/
structure UniformBackend (l h : Nat) (b : Backend) : Prop where
  average : ∀ e, b.latencyEwmaMilli = some e → InInterval l h e
  sampled : b.latencyEwmaMilli = none → b.ewmaSamples = 0
  overSince : b.overSince = none
  ewmaEjections : b.ewmaEjections = 0

structure Uniform (l h : Nat) (p : Pool) : Prop where
  config : ∀ cfg, p.ewma = some cfg → 1 ≤ cfg.minSamples ∧ 1000 * h ≤ cfg.factorMilli * l
  backend : ∀ i, UniformBackend l h (p.backend i)

theorem Backend.Fresh.uniform {l h : Nat} {b : Backend} (hb : b.Fresh) :
    UniformBackend l h b := by
  obtain ⟨health, cfg, heq⟩ := hb
  refine ⟨fun e he => ?_, fun _ => ?_, ?_, ?_⟩ <;> rw [heq] at *
  · exact absurd he (by simp [Backend.new])
  all_goals rfl

/-! ## The mean and the line -/

/-- A backend with enough samples has an average. -/
theorem UniformBackend.average_of_qualifies {l h : Nat} {b : Backend}
    (hb : UniformBackend l h b) {cfg : EwmaConfig} (hmin : 1 ≤ cfg.minSamples)
    (hq : cfg.minSamples ≤ b.ewmaSamples) :
    ∃ e, b.latencyEwmaMilli = some e ∧ InInterval l h e := by
  cases he : b.latencyEwmaMilli with
  | none =>
    have hzero := hb.sampled he
    omega
  | some e => exact ⟨e, rfl, hb.average e he⟩

theorem Uniform.of_mem {l h : Nat} {p : Pool} (hp : Uniform l h p) {b : Backend}
    (hb : b ∈ p.backends) : UniformBackend l h b := by
  obtain ⟨i, hi⟩ := List.mem_iff_getElem?.mp hb
  exact backend_eq_of_getElem? hi ▸ hp.backend i

/-- The mean of a pool with a backend that counts is not below the interval. -/
theorem Uniform.ewmaMean {l h : Nat} {p : Pool} (hp : Uniform l h p) {cfg : EwmaConfig}
    (hcfg : p.ewma = some cfg) {b : Backend} (hb : b ∈ p.backends)
    (hq : cfg.minSamples ≤ b.ewmaSamples) : saturatingMul64 l 1000 ≤ p.ewmaMean := by
  have hmin := (hp.config cfg hcfg).1
  have hne : (p.backends.filter (qualifies cfg)).map (fun b => b.latencyEwmaMilli.getD 0) ≠
      [] := by
    have hmem : b ∈ p.backends.filter (qualifies cfg) :=
      List.mem_filter.mpr ⟨hb, decide_eq_true hq⟩
    simpa using List.ne_nil_of_mem hmem
  have hall : ∀ x ∈ (p.backends.filter (qualifies cfg)).map
      (fun b => b.latencyEwmaMilli.getD 0),
      saturatingMul64 l 1000 ≤ x ∧ x ≤ saturatingMul64 h 1000 := by
    intro x hx
    obtain ⟨c, hc, rfl⟩ := List.mem_map.mp hx
    obtain ⟨hmem, hcq⟩ := List.mem_filter.mp hc
    obtain ⟨e, he, _, hin⟩ :=
      (hp.of_mem hmem).average_of_qualifies hmin (of_decide_eq_true hcq)
    rw [he]
    exact hin
  have hmean := (EwmaConfig.sum_div_within hne hall).1
  have hlen : 0 < (p.backends.filter (qualifies cfg)).length := by
    simpa [List.length_pos_iff] using hne
  rw [List.length_map] at hmean
  have hmax : saturatingMul64 l 1000 ≤ u64Max := Nat.min_le_right _ _
  simp only [Pool.ewmaMean, hcfg, Nat.max_eq_left hlen, toU64]
  omega

/-- No backend is above the line. -/
theorem Uniform.isOver {l h : Nat} {p : Pool} (hp : Uniform l h p) {cfg : EwmaConfig}
    (hcfg : p.ewma = some cfg) {i : Nat} (hi : i < p.backends.length) :
    (p.backend i).isOver cfg (p.threshold.getD 0) = false := by
  obtain ⟨hmin, hfactor⟩ := hp.config cfg hcfg
  have hline : p.threshold.getD 0 = cfg.thresholdMilli p.ewmaMean := by
    simp [threshold, hcfg]
  by_cases hq : cfg.minSamples ≤ (p.backend i).ewmaSamples
  · obtain ⟨e, he, hlh, _, hhi⟩ := (hp.backend i).average_of_qualifies hmin hq
    have hmem : p.backend i ∈ p.backends :=
      List.mem_of_getElem? (getElem?_eq_backend hi)
    have hle := cfg.le_thresholdMilli hlh hfactor (hp.ewmaMean hcfg hmem hq)
    simp only [Backend.isOver, he, hline, Option.getD_some, Bool.and_eq_false_iff,
      decide_eq_false_iff_not, Nat.not_lt]
    exact Or.inr (hhi.trans hle)
  · simp [Backend.isOver, hq]

/-! ## The invariant over a run -/

/-- A call on a backend, other than a poll and a success with a latency, leaves its
average and its window. -/
theorem UniformBackend.keep {l h : Nat} {b b' : Backend} (hb : UniformBackend l h b)
    (havg : b'.latencyEwmaMilli = b.latencyEwmaMilli) (hsamples : b'.ewmaSamples = b.ewmaSamples)
    (hover : b'.overSince = b.overSince) (hcount : b'.ewmaEjections = b.ewmaEjections) :
    UniformBackend l h b' where
  average := by rw [havg]; exact hb.average
  sampled := by rw [havg, hsamples]; exact hb.sampled
  overSince := hover.trans hb.overSince
  ewmaEjections := hcount.trans hb.ewmaEjections

/-- A poll that finds the backend not above the line opens no window. -/
theorem UniformBackend.poll {l h : Nat} {p : Pool} {i : Nat}
    (hb : UniformBackend l h (p.backend i))
    (hnot : ∀ cfg, p.ewma = some cfg →
      (p.backend i).isOver cfg (p.threshold.getD 0) = false) (now : Nat) :
    UniformBackend l h ((p.backend i).poll p.ewma p.threshold now) := by
  cases hcfg : p.ewma with
  | none =>
    have hk := Backend.poll_none_ejection p.threshold now (p.backend i)
    exact hb.keep (by simp) (by simp) (congrArg Backend.Ejection.overSince hk)
      (congrArg Backend.Ejection.ewmaEjections hk)
  | some cfg =>
    have hnot := hnot cfg hcfg
    rcases Backend.poll_some_cases cfg p.threshold now (p.backend i) with
      ⟨_, hk⟩ | ⟨_, _, hk⟩ | ⟨_, ho, _⟩ | ⟨_, _, ho, _⟩ | ⟨_, _, ho, _⟩
    · exact hb.keep (by simp) (by simp) (congrArg Backend.Ejection.overSince hk)
        (congrArg Backend.Ejection.ewmaEjections hk)
    · have hover := congrArg Backend.Ejection.overSince hk
      exact hb.keep (by simp) (by simp) (hover.trans hb.overSince.symm)
        (congrArg Backend.Ejection.ewmaEjections hk)
    all_goals exact absurd (ho.symm.trans hnot) (by decide)

/-- A success with a sample of the interval keeps the average in it. -/
theorem UniformBackend.recordSuccessLatency {l h : Nat} {b : Backend}
    (hb : UniformBackend l h b) (ewma : Option EwmaConfig) (now : Nat) {latencyMs : Nat}
    (hlat : InInterval l h (saturatingMul64 latencyMs 1000)) :
    UniformBackend l h (b.recordSuccessLatency ewma now latencyMs) := by
  rw [Backend.recordSuccessLatency_eq]
  cases ewma with
  | none => exact hb.keep rfl rfl rfl rfl
  | some cfg =>
    refine ⟨fun e he => ?_, fun he => absurd he (by simp), hb.overSince, hb.ewmaEjections⟩
    obtain rfl := Option.some.inj he
    exact ⟨hlat.1, cfg.fold_within (Nat.min_le_right _ _) hlat.2
      (fun e he => (hb.average e he).2)⟩

/-- The step lemma of one backend: the samples are in the interval, and a poll finds
the backend not above the line. -/
theorem UniformBackend.effect {l h : Nat} {p : Pool} {i : Nat}
    (hb : UniformBackend l h (p.backend i)) {op : Op}
    (hlat : ∀ idx now latencyMs, op = .recordSuccessLatency idx now latencyMs →
      InInterval l h (saturatingMul64 latencyMs 1000))
    (hnot : ∀ cfg, p.ewma = some cfg →
      (p.backend i).isOver cfg (p.threshold.getD 0) = false) :
    UniformBackend l h (p.effect op i (p.backend i)) := by
  have hstep := p.effectStep op i (p.backend i)
  generalize p.effect op i (p.backend i) = b' at hstep ⊢
  cases hstep with
  | polled now => exact hb.poll hnot now
  | measured now latencyMs =>
    have hmeasured := hb.recordSuccessLatency p.ewma now (hlat i now latencyMs rfl)
    rwa [Backend.recordSuccessLatency_eq] at hmeasured
  | _ => exact hb.keep rfl rfl rfl rfl

/-- A latency of the interval is a sample of the interval. -/
theorem KeepsUniform.sample {l h : Nat} {op : Op} (hop : KeepsUniform l h op) :
    ∀ idx now latencyMs, op = .recordSuccessLatency idx now latencyMs →
      InInterval l h (saturatingMul64 latencyMs 1000) := by
  rintro idx now latencyMs rfl
  have hlat : l ≤ latencyMs ∧ latencyMs ≤ h := hop
  refine ⟨hlat.1.trans hlat.2, ?_, ?_⟩
  · unfold saturatingMul64
    omega
  · unfold saturatingMul64
    omega

/-- The step lemma. -/
theorem uniform_apply {l h : Nat} {p : Pool} (hp : Uniform l h p) {op : Op}
    (hok : p.Accepts op) (hop : KeepsUniform l h op) : Uniform l h (p.apply op) := by
  refine ⟨?_, fun i => ?_⟩
  · cases op with
    | enableEwma cfg =>
      intro c hc
      obtain rfl : cfg = c := Option.some.inj hc
      exact hop
    | _ =>
      intro c hc
      rw [ewma_apply p _ (by simp)] at hc
      exact hp.config c hc
  · rcases backend_apply_cases hok i with ⟨hi, heq⟩ | ⟨_, hfresh⟩
    · rw [heq]
      exact (hp.backend i).effect hop.sample (fun cfg hcfg => hp.isOver hcfg hi)
    · exact Backend.Fresh.uniform hfresh

/-- Uniform latency never causes a latency ejection.  In every run whose latencies
are all in `[l, h]`, with the latency layer attached with a factor for the interval
and at least one sample, no poll finds a backend above the line, no window is ever
open, and no latency ejection is ever counted. -/
theorem uniform_latency_never_ejects {p₀ : Pool} (h₀ : poolSystem.init p₀) {ops : List Op}
    (hv : poolSystem.Valid p₀ ops) {l h : Nat} (hops : ∀ op ∈ ops, KeepsUniform l h op) :
    ∀ pre post, ops = pre ++ post → ∀ i,
      ((poolSystem.exec p₀ pre).backend i).overSince = none ∧
      ((poolSystem.exec p₀ pre).backend i).ewmaEjections = 0 ∧
      ∀ cfg, (poolSystem.exec p₀ pre).ewma = some cfg →
        i < (poolSystem.exec p₀ pre).backends.length →
        ((poolSystem.exec p₀ pre).backend i).isOver cfg
          ((poolSystem.exec p₀ pre).threshold.getD 0) = false := by
  intro pre post heq i
  subst heq
  have hinit : Uniform l h p₀ := by
    obtain ⟨name, strategy, health, rfl⟩ := h₀
    exact ⟨fun cfg hcfg => absurd hcfg (by simp [Pool.new]),
      fun i => Backend.Fresh.uniform ⟨.default, .default, rfl⟩⟩
  have hinv : Uniform l h (poolSystem.exec p₀ pre) :=
    System.preserved (M := poolSystem) (fun _ _ hp hok hop => uniform_apply hp hok hop) hinit
      hv.left (fun op hop => hops op (List.mem_append_left _ hop))
  exact ⟨(hinv.backend i).overSince, (hinv.backend i).ewmaEjections,
    fun cfg hcfg hi => hinv.isOver hcfg hi⟩

/-- A pool with the latency layer on, and two backends within its factor. -/
def fastAndSlow : List Op :=
  [.enableEwma { EwmaConfig.default with minSamples := 1 },
    .addBackend (.new "a" 1 .default .default), .addBackend (.new "b" 1 .default .default),
    .recordSuccessLatency 0 10 20, .recordSuccessLatency 1 10 60, .poll 10, .poll 5000]

/-- One backend takes three times as long as the other, and is not ejected. -/
theorem uniform_latency_never_ejects_two :
    ((poolSystem.exec (.new "api" .roundRobin .default) fastAndSlow).backend 1).overSince =
        none ∧
      ((poolSystem.exec (.new "api" .roundRobin .default) fastAndSlow).backend
        1).ewmaEjections = 0 := by
  have h₀ : poolSystem.init (.new "api" .roundRobin .default) := ⟨_, _, _, rfl⟩
  have hv : poolSystem.Valid (.new "api" .roundRobin .default) fastAndSlow :=
    ⟨trivial, Backend.fresh_new _ _ _ _, Backend.fresh_new _ _ _ _, Nat.zero_lt_succ _,
      Nat.lt_succ_self _, trivial, trivial, trivial⟩
  have hops : ∀ op ∈ fastAndSlow, KeepsUniform 20 60 op := by
    simp [fastAndSlow, KeepsUniform, EwmaConfig.default]
  have h := uniform_latency_never_ejects h₀ hv hops fastAndSlow [] (by simp) 1
  exact ⟨h.1, h.2.1⟩

end Pool

end Echofront
