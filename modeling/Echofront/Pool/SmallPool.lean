import Echofront.Pool.Uniform

/-!
# Small pools

A backend counts in the mean that it is compared with.  In a pool of `n` backends its
average is at most about `n` times the mean, so with a factor of at least `n` no
backend is ever above the line, however slow it is.  The rounding takes less than one
from each of the other summands, which is why the averages must not be near zero.

* `SmallPool` is the invariant, over the bounds that `UniformBackend` keeps with no
  upper end.
* `SmallPool.le_mul_ewmaMean` and `SmallPool.isOver` take it through the mean and the
  line.
* `small_pool_never_ejects` is the statement about runs.
-/

namespace Echofront

open Lib

namespace Pool

/-- A call of a run of a small pool: its latency is at least 1 ms, and the factor that
it attaches is at least the number of backends. -/
def KeepsSmall (n : Nat) : Op → Prop
  | .enableEwma cfg => 1 ≤ cfg.minSamples ∧ 1000 * n ≤ cfg.factorMilli
  | .recordSuccessLatency _ _ latencyMs => 1 ≤ latencyMs
  | _ => True

/-- What the calls of such a run keep of a pool of at most `n` backends. -/
structure SmallPool (n : Nat) (p : Pool) : Prop where
  config : ∀ cfg, p.ewma = some cfg → 1 ≤ cfg.minSamples ∧ 1000 * n ≤ cfg.factorMilli
  backend : p.backends.length ≤ n → ∀ i, UniformBackend 1 u64Max (p.backend i)

variable {n : Nat} {p : Pool}

/-! ## The mean and the line -/

/-- An average that counts is at most `n` times the mean. -/
theorem SmallPool.le_mul_ewmaMean (hp : SmallPool n p) (hn : p.backends.length ≤ n)
    {cfg : EwmaConfig} (hcfg : p.ewma = some cfg) {b : Backend} (hb : b ∈ p.backends)
    (hq : cfg.minSamples ≤ b.ewmaSamples) :
    b.latencyEwmaMilli.getD 0 ≤ n * p.ewmaMean := by
  have hmin := (hp.config cfg hcfg).1
  have hmem : b ∈ p.backends.filter (qualifies cfg) :=
    List.mem_filter.mpr ⟨hb, decide_eq_true hq⟩
  have hlen : 0 < (p.backends.filter (qualifies cfg)).length := List.length_pos_of_mem hmem
  have hcount : (p.backends.filter (qualifies cfg)).length ≤ n :=
    (List.length_filter_le _ _).trans hn
  have hall : ∀ x ∈ (p.backends.filter (qualifies cfg)).map
      (fun b => b.latencyEwmaMilli.getD 0), 1 ≤ x ∧ x ≤ u64Max := by
    intro x hx
    obtain ⟨c, hc, rfl⟩ := List.mem_map.mp hx
    obtain ⟨hcm, hcq⟩ := List.mem_filter.mp hc
    obtain ⟨i, hi⟩ := List.mem_iff_getElem?.mp hcm
    have hub : UniformBackend 1 u64Max c := backend_eq_of_getElem? hi ▸ hp.backend hn i
    obtain ⟨e, he, _, hlo, hhi⟩ := hub.average_of_qualifies hmin (of_decide_eq_true hcq)
    have hone : 1 ≤ saturatingMul64 1 1000 := by decide
    rw [he]
    exact ⟨hone.trans hlo, hhi.trans (Nat.min_le_right _ _)⟩
  have hmean := (EwmaConfig.sum_div_within (by simpa [List.length_pos_iff] using hlen) hall).2
  have hle := EwmaConfig.le_length_mul_sum_div
    (List.mem_map_of_mem (f := fun b : Backend => b.latencyEwmaMilli.getD 0) hmem)
    (fun x hx => (hall x hx).1)
  rw [List.length_map] at hmean hle
  have hexact : p.ewmaMean = ((p.backends.filter (qualifies cfg)).map
      (fun b => b.latencyEwmaMilli.getD 0)).sum / (p.backends.filter (qualifies cfg)).length := by
    simp only [Pool.ewmaMean, hcfg, Nat.max_eq_left hlen, toU64]
    exact Nat.min_eq_left hmean
  rw [hexact]
  exact hle.trans (Nat.mul_le_mul_right _ hcount)

/-- No backend is above the line. -/
theorem SmallPool.isOver (hp : SmallPool n p) (hn : p.backends.length ≤ n)
    {cfg : EwmaConfig} (hcfg : p.ewma = some cfg) {i : Nat} (hi : i < p.backends.length) :
    (p.backend i).isOver cfg (p.threshold.getD 0) = false := by
  obtain ⟨hmin, hfactor⟩ := hp.config cfg hcfg
  have hline : p.threshold.getD 0 = cfg.thresholdMilli p.ewmaMean := by
    simp [threshold, hcfg]
  by_cases hq : cfg.minSamples ≤ (p.backend i).ewmaSamples
  · have hmem : p.backend i ∈ p.backends := List.mem_of_getElem? (getElem?_eq_backend hi)
    obtain ⟨e, he, _, _, hhi⟩ := (hp.backend hn i).average_of_qualifies hmin hq
    have hmul := hp.le_mul_ewmaMean hn hcfg hmem hq
    rw [he, Option.getD_some] at hmul
    have hle := cfg.le_thresholdMilli_of_mul hfactor hmul (hhi.trans (Nat.min_le_right _ _))
    simp [Backend.isOver, he, hline, hle]
  · simp [Backend.isOver, hq]

/-! ## The invariant over a run -/

/-- The step lemma. -/
theorem smallPool_apply (hp : SmallPool n p) {op : Op} (hok : p.Accepts op)
    (hop : KeepsSmall n op) : SmallPool n (p.apply op) := by
  refine ⟨?_, fun hn i => ?_⟩
  · cases op with
    | enableEwma cfg =>
      intro c hc
      obtain rfl : cfg = c := Option.some.inj hc
      exact hop
    | _ =>
      intro c hc
      rw [ewma_apply p _ (by simp)] at hc
      exact hp.config c hc
  · have hn : p.backends.length ≤ n := (p.length_le_apply op).trans hn
    rcases backend_apply_cases hok i with ⟨hi, heq⟩ | ⟨_, hfresh⟩
    · rw [heq]
      refine (hp.backend hn i).effect ?_ (fun cfg hcfg => hp.isOver hn hcfg hi)
      rintro idx now latencyMs rfl
      have hlat : 1 ≤ latencyMs := hop
      refine ⟨by decide, ?_, ?_⟩ <;> unfold saturatingMul64 u64Max <;> omega
    · exact Backend.Fresh.uniform hfresh

/-- A small pool never ejects a backend for its latency.  In every run of a pool with
at most `n` backends, latencies of at least 1 ms, and the latency layer attached with a
factor of at least `n` and at least one sample, no poll finds a backend above the line,
no window is ever open, and no latency ejection is ever counted. -/
theorem small_pool_never_ejects {p₀ : Pool} (h₀ : poolSystem.init p₀) {ops : List Op}
    (hv : poolSystem.Valid p₀ ops) (hn : (poolSystem.exec p₀ ops).backends.length ≤ n)
    (hops : ∀ op ∈ ops, KeepsSmall n op) :
    ∀ pre post, ops = pre ++ post → ∀ i,
      ((poolSystem.exec p₀ pre).backend i).overSince = none ∧
      ((poolSystem.exec p₀ pre).backend i).ewmaEjections = 0 ∧
      ∀ cfg, (poolSystem.exec p₀ pre).ewma = some cfg →
        i < (poolSystem.exec p₀ pre).backends.length →
        ((poolSystem.exec p₀ pre).backend i).isOver cfg
          ((poolSystem.exec p₀ pre).threshold.getD 0) = false := by
  intro pre post heq i
  subst heq
  have hinit : SmallPool n p₀ := by
    obtain ⟨name, strategy, health, rfl⟩ := h₀
    exact ⟨fun cfg hcfg => absurd hcfg (by simp [Pool.new]),
      fun _ i => Backend.Fresh.uniform ⟨.default, .default, rfl⟩⟩
  have hinv : SmallPool n (poolSystem.exec p₀ pre) :=
    System.preserved (M := poolSystem) (fun _ _ hp hok hop => smallPool_apply hp hok hop)
      hinit hv.left (fun op hop => hops op (List.mem_append_left _ hop))
  have hlen : (poolSystem.exec p₀ pre).backends.length ≤ n := by
    rw [System.exec_append] at hn
    exact (length_le_exec _ post).trans hn
  exact ⟨(hinv.backend hlen i).overSince, (hinv.backend hlen i).ewmaEjections,
    fun cfg hcfg hi => hinv.isOver hlen hcfg hi⟩

/-- Three backends with the default factor of 3, one of them a thousand times slower
than the others. -/
def oneSlowOfThree : List Op :=
  [.enableEwma { EwmaConfig.default with minSamples := 1 },
    .addBackend (.new "a" 1 .default .default), .addBackend (.new "b" 1 .default .default),
    .addBackend (.new "c" 1 .default .default), .recordSuccessLatency 0 10 60000,
    .recordSuccessLatency 1 10 60, .recordSuccessLatency 2 10 60, .poll 10, .poll 5000]

/-- The slow backend is not ejected. -/
theorem small_pool_never_ejects_three :
    ((poolSystem.exec (.new "api" .roundRobin .default) oneSlowOfThree).backend
      0).ewmaEjections = 0 := by
  have h₀ : poolSystem.init (.new "api" .roundRobin .default) := ⟨_, _, _, rfl⟩
  have hv : poolSystem.Valid (.new "api" .roundRobin .default) oneSlowOfThree :=
    ⟨trivial, Backend.fresh_new _ _ _ _, Backend.fresh_new _ _ _ _, Backend.fresh_new _ _ _ _,
      Nat.zero_lt_succ _, Nat.one_lt_succ_succ _, Nat.lt_succ_self _, trivial, trivial, trivial⟩
  have hops : ∀ op ∈ oneSlowOfThree, KeepsSmall 3 op := by
    simp [oneSlowOfThree, KeepsSmall, EwmaConfig.default]
  exact (small_pool_never_ejects h₀ hv (by decide) hops oneSlowOfThree [] (by simp) 0).2.1

end Pool

end Echofront
