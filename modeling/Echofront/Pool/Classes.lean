import Echofront.Pool.Sustained
import Echofront.Pool.Uniform
import Mathlib.Algebra.BigOperators.Ring.List
import Mathlib.Tactic.Ring

/-!
# Fast and slow backends

The design says of a mixed pool that fast backends are never ejected for their latency
and slow ones are.  Both are statements about the latencies that the calls record, with
a band `[l j, h j]` for each backend `j`.

* `Banded` is the invariant: every average is in the band of its backend.  `ewmaMean_within`
  takes bounds of the averages to the mean.
* A backend is fast when its `h` is within the factor of every `l`.  `FastPool` keeps it
  below the line, however slow the others are.
* A backend is slow when its `l` is more than the factor times the mean of all `h`.
  `overAt_of_slow` puts it over the line at every poll, once all backends have their
  samples, and `slow_backend_ejected` is what follows for a run.
* `poll_over_le` is what one poll can do: of the backends that it counts, only about one
  in `factor` is over the line.
-/

namespace Echofront

open Lib

namespace Pool

/-! ## Bands -/

/-- A latency that the call records is in the band of its backend. -/
def InBand (l h : Nat → Nat) : Op → Prop
  | .recordSuccessLatency idx _ latencyMs => l idx ≤ latencyMs ∧ latencyMs ≤ h idx
  | _ => True

/-- The same of the sample that is folded, which saturates. -/
def SampleIn (l h : Nat → Nat) : Op → Prop
  | .recordSuccessLatency idx _ latencyMs =>
    InInterval (l idx) (h idx) (saturatingMul64 latencyMs 1000)
  | _ => True

/-- A backend whose average is in a band. -/
structure BandedBackend (l h : Nat) (b : Backend) : Prop where
  average : ∀ e, b.latencyEwmaMilli = some e → InInterval l h e
  sampled : b.latencyEwmaMilli = none → b.ewmaSamples = 0

def Banded (l h : Nat → Nat) (p : Pool) : Prop := ∀ i, BandedBackend (l i) (h i) (p.backend i)

variable {l h : Nat → Nat} {p : Pool}

theorem InBand.sample {op : Op} (hop : InBand l h op) : SampleIn l h op := by
  cases op with
  | recordSuccessLatency idx now latencyMs =>
    have hlat : l idx ≤ latencyMs ∧ latencyMs ≤ h idx := hop
    refine ⟨hlat.1.trans hlat.2, ?_, ?_⟩ <;> unfold saturatingMul64 <;> omega
  | _ => trivial

/-- A lower end alone: a sample saturates, so it has an upper one. -/
theorem inInterval_of_le {low latencyMs : Nat} (hlow : low ≤ latencyMs) :
    InInterval low (max low u64Max) (saturatingMul64 latencyMs 1000) := by
  refine ⟨Nat.le_max_left _ _, ?_, ?_⟩ <;> unfold saturatingMul64 <;> omega

/-- The step lemma. -/
theorem Banded.apply (hp : Banded l h p) {op : Op} (hok : p.Accepts op)
    (hop : SampleIn l h op) : Banded l h (p.apply op) := by
  intro i
  rcases average_apply_cases hok i with ⟨_, havg, hsamples⟩ | ⟨cfg, latencyMs, hs, havg, _⟩
  · exact ⟨havg ▸ (hp i).average, by rw [havg, hsamples]; exact (hp i).sampled⟩
  · refine ⟨fun e he => ?_, fun he => absurd (havg.symm.trans he) (by simp)⟩
    obtain rfl := Option.some.inj (havg.symm.trans he)
    cases op with
    | recordSuccessLatency idx now ms =>
      obtain ⟨rfl, rfl⟩ : idx = i ∧ ms = latencyMs := by
        by_cases hidx : idx = i
        · cases hcfg : p.ewma <;> simp [latencySample, hidx, hcfg] at hs
          exact ⟨hidx, hs.2⟩
        · simp [latencySample, hidx] at hs
      exact ⟨hop.1, cfg.fold_within (Nat.min_le_right _ _) hop.2
        (fun e he => ((hp idx).average e he).2)⟩
    | _ => exact absurd hs (by simp [latencySample])

theorem banded_new (name : String) (strategy : Strategy) (health : HealthConfig) :
    Banded l h (.new name strategy health) := by
  intro i
  exact ⟨fun e he => absurd he (by simp [Pool.new, backend, default, Backend.new]),
    fun _ => rfl⟩

/-- The run lemma. -/
theorem Banded.exec (hp : Banded l h p) {ops : List Op} (hv : poolSystem.Valid p ops)
    (hops : ∀ op ∈ ops, SampleIn l h op) : Banded l h (poolSystem.exec p ops) :=
  System.preserved (M := poolSystem) (fun _ _ hq hok hop => Banded.apply hq hok hop) hp hv hops

/-! ## The mean -/

/-- A backend that counts in the mean has an average in its band. -/
theorem BandedBackend.average_of_qualifies {lo hi : Nat} {b : Backend}
    (hb : BandedBackend lo hi b) {cfg : EwmaConfig} (hmin : 1 ≤ cfg.minSamples)
    (hq : cfg.minSamples ≤ b.ewmaSamples) :
    ∃ e, b.latencyEwmaMilli = some e ∧ InInterval lo hi e := by
  cases he : b.latencyEwmaMilli with
  | none =>
    have hzero := hb.sampled he
    omega
  | some e => exact ⟨e, rfl, hb.average e he⟩

/-- The averages that the mean is of. -/
def counted (cfg : EwmaConfig) (p : Pool) : List Nat :=
  (p.backends.filter (qualifies cfg)).map (fun b => b.latencyEwmaMilli.getD 0)

theorem ewmaMean_eq {cfg : EwmaConfig} (hcfg : p.ewma = some cfg) :
    p.ewmaMean = toU64 ((counted cfg p).sum / max (counted cfg p).length 1) := by
  simp [ewmaMean, hcfg, counted]

theorem counted_of_qualifies {cfg : EwmaConfig} {i : Nat} (hi : i < p.backends.length)
    (hq : cfg.minSamples ≤ (p.backend i).ewmaSamples) :
    (p.backend i).latencyEwmaMilli.getD 0 ∈ counted cfg p :=
  List.mem_map.mpr ⟨p.backend i, List.mem_filter.mpr
    ⟨List.mem_of_getElem? (getElem?_eq_backend hi), decide_eq_true hq⟩, rfl⟩

theorem backends_eq (p : Pool) :
    p.backends = (List.range p.backends.length).map p.backend := by
  refine List.ext_getElem? (fun j => ?_)
  by_cases hj : j < p.backends.length
  · simp [getElem?_eq_backend hj, List.getElem?_range hj]
  · simp [hj]

/-- The averages that the mean is of, by the indices of the backends. -/
theorem counted_eq (cfg : EwmaConfig) (p : Pool) :
    counted cfg p = ((List.range p.backends.length).filter
      (fun i => decide (cfg.minSamples ≤ (p.backend i).ewmaSamples))).map
        (fun i => (p.backend i).latencyEwmaMilli.getD 0) := by
  rw [counted]
  conv_lhs => rw [backends_eq p]
  rw [List.filter_map, List.map_map]
  rfl

/-- What counts in the mean of a pool with bands of one lower end. -/
theorem Banded.mem_counted {low high : Nat} (hp : Banded (fun _ => low) (fun _ => high) p)
    {cfg : EwmaConfig} (hmin : 1 ≤ cfg.minSamples) :
    ∀ x ∈ counted cfg p, saturatingMul64 low 1000 ≤ x ∧ x ≤ u64Max := by
  intro x hx
  rw [counted_eq] at hx
  obtain ⟨j, hj, rfl⟩ := List.mem_map.mp hx
  obtain ⟨e, he, _, hlo, hhi⟩ :=
    (hp j).average_of_qualifies hmin (of_decide_eq_true (List.mem_filter.mp hj).2)
  rw [he]
  exact ⟨hlo, hhi.trans (Nat.min_le_right _ _)⟩

/-- The mean of averages that count is exact, and no lower than they are. -/
theorem Banded.ewmaMean {low high : Nat} (hp : Banded (fun _ => low) (fun _ => high) p)
    {cfg : EwmaConfig} (hcfg : p.ewma = some cfg) (hmin : 1 ≤ cfg.minSamples)
    (hne : counted cfg p ≠ []) :
    p.ewmaMean = (counted cfg p).sum / (counted cfg p).length ∧
      saturatingMul64 low 1000 ≤ p.ewmaMean := by
  have hlen : 0 < (counted cfg p).length := List.length_pos_iff.mpr hne
  have hmean := EwmaConfig.sum_div_within hne (hp.mem_counted hmin)
  rw [ewmaMean_eq hcfg, Nat.max_eq_left hlen, toU64, Nat.min_eq_left hmean.2]
  exact ⟨rfl, hmean.1⟩

/-! ## Fast backends -/

/-- A call of a run in which backend `i` is fast: all latencies are at least `low`, those of
`i` at most `high`, and the configuration that it attaches has a factor from `low` to
`high`. -/
def KeepsFast (low high i : Nat) : Op → Prop
  | .enableEwma cfg => 1 ≤ cfg.minSamples ∧ 1000 * high ≤ cfg.factorMilli * low
  | .recordSuccessLatency idx _ latencyMs => low ≤ latencyMs ∧ (idx = i → latencyMs ≤ high)
  | _ => True

/-- What the calls of such a run keep of the pool. -/
structure FastPool (low high i : Nat) (p : Pool) : Prop where
  config : ∀ cfg, p.ewma = some cfg → 1 ≤ cfg.minSamples ∧ 1000 * high ≤ cfg.factorMilli * low
  banded : Banded (fun _ => low) (fun _ => max low u64Max) p
  backend : UniformBackend low high (p.backend i)

variable {low high i : Nat}

/-- A fast backend is not above the line. -/
theorem FastPool.isOver (hp : FastPool low high i p) {cfg : EwmaConfig}
    (hcfg : p.ewma = some cfg) (hi : i < p.backends.length) :
    (p.backend i).isOver cfg (p.threshold.getD 0) = false := by
  obtain ⟨hmin, hfactor⟩ := hp.config cfg hcfg
  have hline : p.threshold.getD 0 = cfg.thresholdMilli p.ewmaMean := by
    simp [threshold, hcfg]
  by_cases hq : cfg.minSamples ≤ (p.backend i).ewmaSamples
  · obtain ⟨e, he, hlh, _, hhi⟩ := hp.backend.average_of_qualifies hmin hq
    have hmean := hp.banded.ewmaMean hcfg hmin (List.ne_nil_of_mem (counted_of_qualifies hi hq))
    have hle := cfg.le_thresholdMilli hlh hfactor hmean.2
    simp only [Backend.isOver, he, hline, Option.getD_some, Bool.and_eq_false_iff,
      decide_eq_false_iff_not, Nat.not_lt]
    exact Or.inr (hhi.trans hle)
  · simp [Backend.isOver, hq]

/-- The step lemma. -/
theorem FastPool.apply (hp : FastPool low high i p) {op : Op} (hok : p.Accepts op)
    (hop : KeepsFast low high i op) : FastPool low high i (p.apply op) := by
  refine ⟨?_, hp.banded.apply hok ?_, ?_⟩
  · cases op with
    | enableEwma cfg =>
      intro c hc
      obtain rfl : cfg = c := Option.some.inj hc
      exact hop
    | _ =>
      intro c hc
      rw [ewma_apply p _ (by simp)] at hc
      exact hp.config c hc
  · cases op with
    | recordSuccessLatency idx now latencyMs => exact inInterval_of_le hop.1
    | _ => trivial
  · rcases backend_apply_cases hok i with ⟨hi, heq⟩ | ⟨_, hfresh⟩
    · rw [heq]
      by_cases hother : ∃ idx now latencyMs, op = .recordSuccessLatency idx now latencyMs ∧ idx ≠ i
      · obtain ⟨idx, now, latencyMs, rfl, hne⟩ := hother
        simpa only [effect, if_neg hne] using hp.backend
      · refine hp.backend.effect ?_ (fun cfg hcfg => hp.isOver hcfg hi)
        rintro idx now latencyMs rfl
        have hidx : idx = i := by
          by_contra hne
          exact hother ⟨idx, now, latencyMs, rfl, hne⟩
        have hlat : low ≤ latencyMs ∧ (idx = i → latencyMs ≤ high) := hop
        have hband : InBand (fun _ => low) (fun _ => high)
            (.recordSuccessLatency idx now latencyMs) := ⟨hlat.1, hlat.2 hidx⟩
        exact hband.sample
    · exact Backend.Fresh.uniform hfresh

theorem fastPool_new (name : String) (strategy : Strategy) (health : HealthConfig) :
    FastPool low high i (.new name strategy health) where
  config := fun cfg hcfg => absurd hcfg (by simp [Pool.new])
  banded := banded_new name strategy health
  backend := Backend.Fresh.uniform ⟨.default, .default, rfl⟩

/-- The run lemma. -/
theorem FastPool.exec (hp : FastPool low high i p) {ops : List Op}
    (hv : poolSystem.Valid p ops) (hops : ∀ op ∈ ops, KeepsFast low high i op) :
    FastPool low high i (poolSystem.exec p ops) :=
  System.preserved (M := poolSystem) (fun _ _ hq hok hop => FastPool.apply hq hok hop) hp hv
    hops

/-! ## Slow backends -/

/-- The sum of the upper ends of the first `n` bands. -/
def bandSum (h : Nat → Nat) (n : Nat) : Nat := ((List.range n).map h).sum

/-- When all backends count, the averages add up to no more than the upper ends. -/
theorem Banded.sum_counted_le (hp : Banded l h p) {cfg : EwmaConfig}
    (hmin : 1 ≤ cfg.minSamples)
    (hq : ∀ j < p.backends.length, cfg.minSamples ≤ (p.backend j).ewmaSamples) :
    (counted cfg p).length = p.backends.length ∧
      (counted cfg p).sum ≤ 1000 * bandSum h p.backends.length := by
  have hfilter : (List.range p.backends.length).filter
      (fun i => decide (cfg.minSamples ≤ (p.backend i).ewmaSamples)) =
        List.range p.backends.length :=
    List.filter_eq_self.mpr (fun j hj => decide_eq_true (hq j (List.mem_range.mp hj)))
  rw [counted_eq, hfilter, bandSum]
  refine ⟨by simp, ?_⟩
  rw [← List.sum_map_mul_left]
  refine List.sum_le_sum (fun j hj => ?_)
  obtain ⟨e, he, _, _, hhi⟩ :=
    (hp j).average_of_qualifies hmin (hq j (List.mem_range.mp hj))
  have hle : saturatingMul64 (h j) 1000 ≤ h j * 1000 := Nat.min_le_left _ _
  rw [he, Option.getD_some]
  omega

/-- Backend `i` is slow among the first `n` backends: its `l` is more than the factor times
the mean of all `h`. -/
def IsSlow (cfg : EwmaConfig) (l h : Nat → Nat) (n i : Nat) : Prop :=
  cfg.factorMilli * bandSum h n < 1000 * (n * l i) ∧ 1000 * l i ≤ u64Max

instance (cfg : EwmaConfig) (l h : Nat → Nat) (n i : Nat) : Decidable (IsSlow cfg l h n i) :=
  inferInstanceAs (Decidable (_ ∧ _))

/-- The line of a pool in which all backends count is below the band of a slow backend. -/
theorem thresholdMilli_lt_of_slow (hp : Banded l h p) {cfg : EwmaConfig}
    (hcfg : p.ewma = some cfg) (hmin : 1 ≤ cfg.minSamples)
    (hq : ∀ j < p.backends.length, cfg.minSamples ≤ (p.backend j).ewmaSamples) {i : Nat}
    (hi : i < p.backends.length) (hslow : IsSlow cfg l h p.backends.length i) :
    cfg.thresholdMilli p.ewmaMean < saturatingMul64 (l i) 1000 := by
  obtain ⟨hlen, hsum⟩ := hp.sum_counted_le hmin hq
  have hpos : 0 < p.backends.length := Nat.lt_of_le_of_lt (Nat.zero_le i) hi
  have hmean : p.ewmaMean * p.backends.length ≤ 1000 * bandSum h p.backends.length := by
    have hle : p.ewmaMean ≤ (counted cfg p).sum / p.backends.length := by
      rw [ewmaMean_eq hcfg, hlen, Nat.max_eq_left hpos]
      exact Nat.min_le_left _ _
    exact ((Nat.le_div_iff_mul_le hpos).mp hle).trans hsum
  have hline : p.ewmaMean * cfg.factorMilli < 1000 * (1000 * l i) := by
    refine Nat.lt_of_mul_lt_mul_right (a := p.backends.length) ?_
    calc p.ewmaMean * cfg.factorMilli * p.backends.length
        = p.ewmaMean * p.backends.length * cfg.factorMilli := by ring
      _ ≤ 1000 * bandSum h p.backends.length * cfg.factorMilli := Nat.mul_le_mul_right _ hmean
      _ = 1000 * (cfg.factorMilli * bandSum h p.backends.length) := by ring
      _ < 1000 * (1000 * (p.backends.length * l i)) := by
        have hgap := hslow.1
        omega
      _ = 1000 * (1000 * l i) * p.backends.length := by ring
  have hexact : saturatingMul64 (l i) 1000 = 1000 * l i := by
    rw [saturatingMul64, Nat.mul_comm, Nat.min_eq_left hslow.2]
  rw [hexact]
  exact Nat.lt_of_le_of_lt (Nat.min_le_left _ _) (Nat.div_lt_of_lt_mul hline)

/-- Every poll finds a slow backend over the line, or ejected. -/
theorem overAt_of_slow (hp : Banded l h p) {cfg : EwmaConfig} (hcfg : p.ewma = some cfg)
    (hmin : 1 ≤ cfg.minSamples)
    (hq : ∀ j < p.backends.length, cfg.minSamples ≤ (p.backend j).ewmaSamples) {i : Nat}
    (hi : i < p.backends.length) (hslow : IsSlow cfg l h p.backends.length i) {now : Nat}
    (hact : (p.backend i).isEjected now = false) : OverAt cfg i p now := by
  obtain ⟨e, he, _, hlo, _⟩ := (hp i).average_of_qualifies hmin (hq i hi)
  have hline := thresholdMilli_lt_of_slow hp hcfg hmin hq hi hslow
  exact ⟨hact, hq i hi, e, he, Nat.lt_of_lt_of_le hline hlo⟩

/-! ## A window of a slow backend -/

/-- The polls of a run all find backend `i` not ejected, or one of them finds it
ejected. -/
theorem always_or_ejected {cfg : EwmaConfig} {i : Nat} {ops : List Op}
    (hover : ∀ a b, ops = a ++ b → ∀ now,
      ((poolSystem.exec p a).backend i).isEjected now = false →
        OverAt cfg i (poolSystem.exec p a) now) :
    poolSystem.Always (PollsOver cfg i) p ops ∨
      ∃ a u b, ops = a ++ Op.poll u :: b ∧
        ((poolSystem.exec p a).backend i).isEjected u = true := by
  induction ops generalizing p with
  | nil => exact Or.inl trivial
  | cons op ops ih =>
    have hrest := ih (p := p.apply op)
      (fun a b heq => hover (op :: a) b (by rw [heq, List.cons_append]))
    by_cases hnow : PollsOver cfg i p op
    · rcases hrest with hall | ⟨a, u, b, heq, hej⟩
      · exact Or.inl ⟨hnow, hall⟩
      · exact Or.inr ⟨op :: a, u, b, by rw [heq, List.cons_append], hej⟩
    · -- a poll that does not find it over the line finds it ejected
      obtain ⟨u, hu, hnot⟩ : ∃ u ∈ op.pollTime, ¬ OverAt cfg i p u := by
        simpa only [PollsOver, not_forall, exists_prop] using hnow
      obtain rfl := Op.eq_poll_of_pollTime hu
      refine Or.inr ⟨[], u, ops, rfl, ?_⟩
      by_contra hact
      exact hnot (hover [] (.poll u :: ops) rfl u (by simpa using hact))

theorem samplesIn_le_left (i : Nat) (xs ys : List Op) :
    samplesIn i xs ≤ samplesIn i (xs ++ ys) := by
  rw [samplesIn_append]
  exact Nat.le_add_right _ _

/-- A slow backend is ejected.  Take a run with the latency layer on from the start, times
that do not go back, and all latencies in the bands, in which a window lies between a poll
at `s` and one at `t`.  If all backends have their samples before `s` and no backend joins
after it, a backend that is slow and gets enough samples between the two polls is ejected
at `t` at the latest: one of the polls ejects it for its latency, or finds it ejected. -/
theorem slow_backend_ejected {cfg : EwmaConfig} {p₀ : Pool}
    (h₀ : ∃ name strategy health, p₀ = (Pool.new name strategy health).enableEwma cfg)
    {pre mid : List Op} {i n s t : Nat}
    (hv : poolSystem.Valid p₀ (pre ++ (Op.poll s :: mid ++ [Op.poll t])))
    (hops : ∀ op ∈ pre ++ (Op.poll s :: mid ++ [Op.poll t]),
      InBand l h op ∧ ∀ c, op ≠ .enableEwma c)
    (hn : Nondecreasing Op.time (pre ++ (Op.poll s :: mid ++ [Op.poll t])))
    (hlen : (poolSystem.exec p₀ pre).backends.length = n)
    (hlen' : (poolSystem.exec p₀ (pre ++ (Op.poll s :: mid ++ [Op.poll t]))).backends.length = n)
    (hmin : 1 ≤ cfg.minSamples)
    (hcount : ∀ j < n, cfg.minSamples ≤ samplesIn j pre ∧
      samplesIn j (pre ++ (Op.poll s :: mid ++ [Op.poll t])) < 2 ^ 32)
    (hi : i < n) (hslow : IsSlow cfg l h n i) (hwindow : cfg.windowMs ≤ t - s)
    (hfresh : cfg.minSamples ≤ samplesIn i mid) :
    ∃ a u b, Op.poll s :: mid ++ [Op.poll t] = a ++ Op.poll u :: b ∧
      (((poolSystem.exec p₀ (pre ++ a)).backend i).isEjected u = true ∨
        EjectsAt cfg i (poolSystem.exec p₀ (pre ++ a)) u) := by
  have hfix : ∀ op ∈ pre ++ (Op.poll s :: mid ++ [Op.poll t]), ∀ c, op ≠ .enableEwma c :=
    fun op hop => (hops op hop).2
  have hband : Banded l h p₀ := by
    obtain ⟨name, strategy, health, rfl⟩ := h₀
    exact banded_new name strategy health
  -- every state of the window has all `n` backends, and they count
  have hover : ∀ a b, Op.poll s :: mid ++ [Op.poll t] = a ++ b → ∀ now,
      ((poolSystem.exec (poolSystem.exec p₀ pre) a).backend i).isEjected now = false →
        OverAt cfg i (poolSystem.exec (poolSystem.exec p₀ pre) a) now := by
    intro a b heq now hact
    rw [← System.exec_append] at hact ⊢
    rw [heq, ← List.append_assoc] at hv hfix hcount hlen' hops
    have hlow := length_le_exec (poolSystem.exec p₀ pre) a
    have hhigh := length_le_exec (poolSystem.exec p₀ (pre ++ a)) b
    rw [← System.exec_append] at hlow hhigh
    obtain rfl : (poolSystem.exec p₀ (pre ++ a)).backends.length = n := by omega
    have htracked := tracked_exec h₀ hv.left (fun op hop => hfix op (List.mem_append_left b hop))
    refine overAt_of_slow ?_ (htracked i).1 hmin (fun j hj => ?_) hi hslow hact
    · exact hband.exec hv.left (fun op hop => (hops op (List.mem_append_left b hop)).1.sample)
    · obtain ⟨hsamples, hlt⟩ := hcount j hj
      have hle := samplesIn_le_left j (pre ++ a) b
      rw [(htracked j).2.samples (by omega)]
      exact hsamples.trans (samplesIn_le_left j pre a)
  rcases always_or_ejected hover with hall | ⟨a, u, b, heq, hej⟩
  · have hsum : samplesIn i pre + samplesIn i mid ≤
        samplesIn i (pre ++ (Op.poll s :: mid ++ [Op.poll t])) := by
      have hcons : samplesIn i (Op.poll s :: mid) = samplesIn i [Op.poll s] + samplesIn i mid :=
        samplesIn_append i [Op.poll s] mid
      rw [samplesIn_append, samplesIn_append, hcons]
      omega
    have hlt := (hcount i hi).2
    obtain ⟨he, htr⟩ := tracked_exec h₀ hv.left (fun op hop => hfix op (by simp [hop])) i
    have hsamples := htr.samples (by omega)
    obtain ⟨a, u, b, heq, hej⟩ := ejects_of_tracked he hv.right
      (fun op hop => hfix op (by simp [hop])) hall
      (fun since hs => ⟨hn.le (htr.opened since hs) rfl List.mem_cons_self rfl,
        htr.snapshot (by omega) since hs⟩) hwindow (by omega) hfresh
    rw [← System.exec_append] at hej
    exact ⟨a, u, b, heq, Or.inr hej⟩
  · rw [← System.exec_append] at hej
    exact ⟨a, u, b, heq, Or.inl hej⟩

/-- The band of the slow backend is 1000 ms, and that of the fast one is 1 ms. -/
def slowBand (j : Nat) : Nat := if j = 0 then 1000 else 1

/-- The slow calls, and a poll a window later. -/
theorem slow_backend_ejected_two :
    ∃ a u b, Op.poll 0 :: [.recordSuccessLatency 0 1 1000] ++ [Op.poll 12] = a ++ Op.poll u :: b ∧
      (((poolSystem.exec shortWindowPool (slowCalls.take 4 ++ a)).backend 0).isEjected u = true ∨
        EjectsAt shortWindow 0 (poolSystem.exec shortWindowPool (slowCalls.take 4 ++ a)) u) := by
  have hv : poolSystem.Valid shortWindowPool (slowCalls.take 4 ++
      (Op.poll 0 :: [.recordSuccessLatency 0 1 1000] ++ [Op.poll 12])) := by
    have hcalls : slowCalls.take 4 ++ (Op.poll 0 :: [.recordSuccessLatency 0 1 1000] ++
        [Op.poll 12]) = slowCalls ++ [Op.poll 12] := rfl
    rw [hcalls, System.valid_append_iff]
    exact ⟨valid_slowCalls, trivial, trivial⟩
  have hops : ∀ op ∈ slowCalls.take 4 ++
      (Op.poll 0 :: [.recordSuccessLatency 0 1 1000] ++ [Op.poll 12]),
      InBand slowBand slowBand op ∧ ∀ c, op ≠ .enableEwma c := by
    simp [slowCalls, InBand, slowBand]
  exact slow_backend_ejected ⟨"api", .roundRobin, _, rfl⟩ hv hops (by decide) rfl rfl (by decide)
    (by decide) Nat.zero_lt_two (by decide) (by decide) (by decide)

/-! ## One poll -/

/-- The backends that a poll at `now` ejects for their latency. -/
def ejectedAt (p : Pool) (now : Nat) : List Nat :=
  (List.range p.backends.length).filter
    (fun i => decide ((p.backend i).ewmaEjections < ((p.poll now).backend i).ewmaEjections))

/-- A backend that a poll ejects for its latency counts in the mean, and its average is
above the exact line. -/
theorem of_mem_ejectedAt {cfg : EwmaConfig} (hcfg : p.ewma = some cfg)
    (hp : Banded (fun _ => low) (fun _ => high) p) {now : Nat} (hi : i ∈ ejectedAt p now) :
    cfg.minSamples ≤ (p.backend i).ewmaSamples ∧
      p.ewmaMean * cfg.factorMilli ≤ 1000 * (p.backend i).latencyEwmaMilli.getD 0 := by
  obtain ⟨hrange, hcount⟩ := List.mem_filter.mp hi
  have heff : (p.poll now).backend i = (p.backend i).poll p.ewma p.threshold now :=
    backend_apply_of_lt (List.mem_range.mp hrange) (.poll now)
  rw [heff, hcfg] at hcount
  obtain ⟨_, hact, ho, _⟩ := Backend.windowFull_of_ewmaEjections (of_decide_eq_true hcount)
  obtain ⟨_, hq, e, he, hline⟩ := (overAt_iff hcfg i now).mpr ⟨hact, ho⟩
  have he : (p.backend i).latencyEwmaMilli = some e := he
  have hmax : e ≤ u64Max := ((hp i).average e he).2.2.trans (Nat.min_le_right _ _)
  -- the line is not above every average, so it has not saturated
  have hexact : p.ewmaMean * cfg.factorMilli / 1000 < e := by
    unfold EwmaConfig.thresholdMilli toU64 at hline
    omega
  refine ⟨hq, ?_⟩
  rw [he, Option.getD_some]
  omega

/-- The averages of the backends that a poll ejects are some of those that count. -/
theorem sum_ejectedAt_le {cfg : EwmaConfig} (hcfg : p.ewma = some cfg)
    (hp : Banded (fun _ => low) (fun _ => high) p) (now : Nat) :
    ((ejectedAt p now).map (fun i => (p.backend i).latencyEwmaMilli.getD 0)).sum ≤
      (counted cfg p).sum := by
  rw [counted_eq]
  refine List.Sublist.sum_le_sum (List.Sublist.map _ ?_) (fun x _ => Nat.zero_le x)
  have hsub : ejectedAt p now = (ejectedAt p now).filter
      (fun i => decide (cfg.minSamples ≤ (p.backend i).ewmaSamples)) :=
    (List.filter_eq_self.mpr (fun i hi => decide_eq_true (of_mem_ejectedAt hcfg hp hi).1)).symm
  rw [hsub]
  exact List.filter_sublist.filter _

/-- A bound on `x` times a mean, rounded down, without the mean: what the rounding adds is
`n` at most. -/
theorem mul_le_of_mul_mean {x m n : Nat} (h : x * m ≤ 1000 * (n * (m + 1)))
    (hlow : 1000 * low ≤ m) : x * low ≤ n * (1000 * low + 1) := by
  rcases Nat.le_total x (1000 * n) with hle | hle
  · calc x * low ≤ 1000 * n * low := Nat.mul_le_mul_right _ hle
      _ ≤ n * (1000 * low + 1) := by
        rw [Nat.mul_add, Nat.mul_one, Nat.mul_comm 1000, Nat.mul_assoc]
        exact Nat.le_add_right _ _
  · obtain ⟨d, rfl⟩ := Nat.exists_eq_add_of_le hle
    have hd : d * m ≤ 1000 * n := by
      have hexp : (1000 * n + d) * m = 1000 * (n * m) + d * m := by ring
      have hexp' : 1000 * (n * (m + 1)) = 1000 * (n * m) + 1000 * n := by ring
      omega
    have hdlow : 1000 * (d * low) ≤ 1000 * n := by
      calc 1000 * (d * low) = d * (1000 * low) := by ring
        _ ≤ d * m := Nat.mul_le_mul_left _ hlow
        _ ≤ 1000 * n := hd
    calc (1000 * n + d) * low = n * (1000 * low) + d * low := by ring
      _ ≤ n * (1000 * low) + n := by omega
      _ = n * (1000 * low + 1) := by ring

/-- A poll ejects only a share of the pool for its latency, of about one in the factor.  With
every latency at least `low` the share is `(1000 * low + 1) / (factor_milli * low)`: with the
default factor of 3 and latencies of 1 ms and more, a third of a pool of fewer than 1000
backends. -/
theorem poll_ejects_few {p₀ : Pool} (h₀ : poolSystem.init p₀) {ops : List Op}
    (hv : poolSystem.Valid p₀ ops) {low : Nat} (hmax : 1000 * low ≤ u64Max)
    (hops : ∀ idx now latencyMs, .recordSuccessLatency idx now latencyMs ∈ ops →
      low ≤ latencyMs) {cfg : EwmaConfig} (hcfg : (poolSystem.exec p₀ ops).ewma = some cfg)
    (hmin : 1 ≤ cfg.minSamples) (now : Nat) :
    (ejectedAt (poolSystem.exec p₀ ops) now).length * cfg.factorMilli * low ≤
      (poolSystem.exec p₀ ops).backends.length * (1000 * low + 1) := by
  have hp : Banded (fun _ => low) (fun _ => max low u64Max) (poolSystem.exec p₀ ops) := by
    obtain ⟨name, strategy, health, rfl⟩ := h₀
    refine (banded_new name strategy health).exec hv (fun op hop => ?_)
    cases op with
    | recordSuccessLatency idx now latencyMs =>
      exact inInterval_of_le (hops idx now latencyMs hop)
    | _ => trivial
  generalize poolSystem.exec p₀ ops = p at hcfg hp ⊢
  by_cases hnil : ejectedAt p now = []
  · simp [hnil]
  -- the averages of the ejected backends are each above the line, and add up to no more than all
  have hsum : (ejectedAt p now).length * (p.ewmaMean * cfg.factorMilli) ≤
      1000 * (counted cfg p).sum := by
    have hcard := List.card_nsmul_le_sum ((ejectedAt p now).map
      (fun i => 1000 * (p.backend i).latencyEwmaMilli.getD 0)) (p.ewmaMean * cfg.factorMilli)
      (fun x hx => by
        obtain ⟨i, hi, rfl⟩ := List.mem_map.mp hx
        exact (of_mem_ejectedAt hcfg hp hi).2)
    rw [List.length_map, List.sum_map_mul_left] at hcard
    exact hcard.trans (Nat.mul_le_mul_left _ (sum_ejectedAt_le hcfg hp now))
  have hne : counted cfg p ≠ [] := by
    obtain ⟨i, hi⟩ := List.exists_mem_of_ne_nil _ hnil
    exact List.ne_nil_of_mem (counted_of_qualifies
      (List.mem_range.mp (List.mem_filter.mp hi).1) (of_mem_ejectedAt hcfg hp hi).1)
  obtain ⟨hmean, hlow⟩ := hp.ewmaMean hcfg hmin hne
  have hlen : (counted cfg p).length ≤ p.backends.length := by
    rw [counted, List.length_map]
    exact List.length_filter_le _ _
  have hdiv : (counted cfg p).sum < (counted cfg p).length * (p.ewmaMean + 1) := by
    rw [hmean]
    exact Nat.lt_mul_div_succ _ (List.length_pos_iff.mpr hne)
  have hexact : saturatingMul64 low 1000 = 1000 * low := by
    rw [saturatingMul64, Nat.mul_comm, Nat.min_eq_left hmax]
  refine mul_le_of_mul_mean (m := p.ewmaMean) ?_ (hexact ▸ hlow)
  calc (ejectedAt p now).length * cfg.factorMilli * p.ewmaMean
      = (ejectedAt p now).length * (p.ewmaMean * cfg.factorMilli) := by ring
    _ ≤ 1000 * (counted cfg p).sum := hsum
    _ ≤ 1000 * (p.backends.length * (p.ewmaMean + 1)) :=
      Nat.mul_le_mul_left _ (hdiv.le.trans (Nat.mul_le_mul_right _ hlen))

/-- The poll at 12 ejects the slow backend, which is one of two. -/
theorem poll_ejects_few_two :
    let calls := Op.enableEwma shortWindow :: slowCalls
    let p := poolSystem.exec (.new "api" .roundRobin .default) calls
    ejectedAt p 12 = [0] ∧ (ejectedAt p 12).length * 1000 * 1 ≤ p.backends.length * 1001 := by
  intro calls p
  have hv : poolSystem.Valid (.new "api" .roundRobin .default) calls :=
    ⟨trivial, Backend.fresh_new _ _ _ _, Backend.fresh_new _ _ _ _, Nat.zero_lt_succ 1,
      Nat.one_lt_succ_succ 0, trivial, Nat.zero_lt_succ 1, trivial⟩
  have hops : ∀ idx now latencyMs, .recordSuccessLatency idx now latencyMs ∈ calls →
      1 ≤ latencyMs := by
    intro idx now latencyMs hmem
    simp [calls, slowCalls] at hmem
    omega
  exact ⟨by decide, poll_ejects_few ⟨_, _, _, rfl⟩ hv (by decide) hops rfl (by decide) 12⟩

end Pool

end Echofront
