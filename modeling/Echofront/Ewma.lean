import Echofront.Machine
import Echofront.Lib.Blend
import Mathlib.Algebra.Order.BigOperators.Group.List
import Mathlib.Algebra.Order.Group.Nat

/-!
# The latency average

`EwmaConfig` of `src/ewma.rs` with its two computations.  The 128 bit sums and
products of the source are exact on 64 bit inputs, so they are `Nat` here; the
two conversions back to 64 bits saturate.

Every rounding is down.  `fold_within` and `sum_div_within` say that a mean of
values of an interval stays in the interval all the same, and
`le_thresholdMilli` that the line of a mean does not fall below the values that its
factor allows, also where both saturate.
-/

namespace Echofront

/-- `EwmaConfig`. -/
structure EwmaConfig where
  alphaMilli : Nat
  factorMilli : Nat
  windowMs : Nat
  minSamples : Nat
  ejectionMs : Nat
  reinstatePercent : Nat
  rampWindowMs : Nat
deriving DecidableEq, Repr

/-- `EwmaConfig::default`. -/
def EwmaConfig.default : EwmaConfig where
  alphaMilli := 250
  factorMilli := 3000
  windowMs := 2000
  minSamples := 8
  ejectionMs := 1500
  reinstatePercent := 25
  rampWindowMs := 1000

open Lib

namespace EwmaConfig

/-- The ejection line for a pool mean. -/
def thresholdMilli (cfg : EwmaConfig) (poolMeanMilli : Nat) : Nat :=
  toU64 (poolMeanMilli * cfg.factorMilli / 1000)

/-- One latency sample folded into an average. -/
def fold (cfg : EwmaConfig) (current : Option Nat) (latencyMs : Nat) : Nat :=
  let sampleMilli := saturatingMul64 latencyMs 1000
  match current with
  | none => sampleMilli
  | some prev =>
    let alpha := min cfg.alphaMilli 1000
    toU64 ((alpha * sampleMilli + (1000 - alpha) * prev) / 1000)

/-- The percent a reinstated backend starts from, `clamp(1, 100)`. -/
def reinstateRamp (cfg : EwmaConfig) : Nat := max 1 (min cfg.reinstatePercent 100)

/-! ## Averages of an interval -/

/-- The mean of values of an interval, rounded down, is in the interval. -/
theorem sum_div_within {lo hi : Nat} {xs : List Nat} (hne : xs ≠ [])
    (h : ∀ x ∈ xs, lo ≤ x ∧ x ≤ hi) :
    lo ≤ xs.sum / xs.length ∧ xs.sum / xs.length ≤ hi := by
  have hlen : 0 < xs.length := List.length_pos_iff.mpr hne
  have hlo : xs.length * lo ≤ xs.sum := by
    simpa using List.card_nsmul_le_sum xs lo (fun x hx => (h x hx).1)
  have hhi : xs.sum ≤ xs.length * hi := by
    simpa using List.sum_le_card_nsmul xs hi (fun x hx => (h x hx).2)
  exact ⟨(Nat.le_div_iff_mul_le hlen).mpr (by rwa [Nat.mul_comm]),
    Nat.div_le_of_le_mul hhi⟩

/-- A summand is at most as many times the mean as there are summands, when none of
them is zero: what the rounding of the mean takes is less than one for each of the
others. -/
theorem le_length_mul_sum_div {e : Nat} {xs : List Nat} (he : e ∈ xs)
    (h : ∀ x ∈ xs, 1 ≤ x) : e ≤ xs.length * (xs.sum / xs.length) := by
  obtain ⟨as, bs, rfl⟩ := List.append_of_mem he
  have has := List.length_le_sum_of_one_le as (fun x hx => h x (by simp [hx]))
  have hbs := List.length_le_sum_of_one_le bs (fun x hx => h x (by simp [hx]))
  have hlen : 0 < (as ++ e :: bs).length := by simp
  have hmod := Nat.mod_lt (as ++ e :: bs).sum hlen
  have hdiv := Nat.div_add_mod (as ++ e :: bs).sum (as ++ e :: bs).length
  simp only [List.sum_append, List.sum_cons, List.length_append, List.length_cons] at *
  omega

/-- The blend of two 64 bit values fits in 64 bits, so the conversion of a fold
changes nothing. -/
theorem fold_some (cfg : EwmaConfig) {prev : Nat} (h : prev ≤ u64Max) (latencyMs : Nat) :
    cfg.fold (some prev) latencyMs =
      blend 1000 (min cfg.alphaMilli 1000) (saturatingMul64 latencyMs 1000) prev := by
  have hs : saturatingMul64 latencyMs 1000 ≤ u64Max := Nat.min_le_right _ _
  have hmax := (blend_within (d := 1000) (a := min cfg.alphaMilli 1000) (by decide)
    (Nat.min_le_right _ _) ⟨Nat.zero_le _, hs⟩ ⟨Nat.zero_le _, h⟩).2
  exact Nat.min_eq_left hmax

/-- A sample of an interval folded into an average of the interval stays in it. -/
theorem fold_within (cfg : EwmaConfig) {lo hi latencyMs : Nat} {current : Option Nat}
    (hmax : hi ≤ u64Max)
    (hs : lo ≤ saturatingMul64 latencyMs 1000 ∧ saturatingMul64 latencyMs 1000 ≤ hi)
    (hc : ∀ e, current = some e → lo ≤ e ∧ e ≤ hi) :
    lo ≤ cfg.fold current latencyMs ∧ cfg.fold current latencyMs ≤ hi := by
  cases current with
  | none => exact hs
  | some prev =>
    have hprev := hc prev rfl
    rw [cfg.fold_some (hprev.2.trans hmax)]
    exact blend_within (by decide) (Nat.min_le_right _ _) hs hprev

/-- A fold is monotone in the average and in the latency. -/
theorem fold_mono (cfg : EwmaConfig) {prev prev' latencyMs latencyMs' : Nat}
    (hp : prev ≤ prev') (hl : latencyMs ≤ latencyMs') :
    cfg.fold (some prev) latencyMs ≤ cfg.fold (some prev') latencyMs' := by
  have hs : saturatingMul64 latencyMs 1000 ≤ saturatingMul64 latencyMs' 1000 := by
    unfold saturatingMul64
    omega
  have hblend := blend_mono (d := 1000) (a := min cfg.alphaMilli 1000) hs hp
  simp only [fold, toU64]
  exact min_le_min_right u64Max hblend

/-- The average after `n` samples of one latency. -/
def foldTimes (cfg : EwmaConfig) (latencyMs n prev : Nat) : Nat :=
  (fun e => cfg.fold (some e) latencyMs)^[n] prev

theorem foldTimes_eq (cfg : EwmaConfig) (latencyMs n : Nat) {prev : Nat}
    (h : prev ≤ u64Max) :
    cfg.foldTimes latencyMs n prev =
      (blend 1000 (min cfg.alphaMilli 1000) (saturatingMul64 latencyMs 1000))^[n] prev := by
  have hs : saturatingMul64 latencyMs 1000 ≤ u64Max := Nat.min_le_right _ _
  unfold foldTimes
  induction n generalizing prev with
  | zero => rfl
  | succ n ih =>
    have hmax := (blend_within (d := 1000) (a := min cfg.alphaMilli 1000) (by decide)
      (Nat.min_le_right _ _) ⟨Nat.zero_le _, hs⟩ ⟨Nat.zero_le _, h⟩).2
    rw [Function.iterate_succ_apply, Function.iterate_succ_apply, cfg.fold_some h]
    exact ih hmax

theorem thresholdMilli_mono (cfg : EwmaConfig) {m n : Nat} (h : m ≤ n) :
    cfg.thresholdMilli m ≤ cfg.thresholdMilli n := by
  have hdiv : m * cfg.factorMilli / 1000 ≤ n * cfg.factorMilli / 1000 :=
    Nat.div_le_div_right (Nat.mul_le_mul_right _ h)
  unfold thresholdMilli toU64
  omega

/-- The line of a mean is not below `n` times the mean, when the factor is at least
`n`. -/
theorem le_thresholdMilli_of_mul (cfg : EwmaConfig) {e mean n : Nat}
    (hfactor : 1000 * n ≤ cfg.factorMilli) (he : e ≤ n * mean) (hmax : e ≤ u64Max) :
    e ≤ cfg.thresholdMilli mean := by
  have hprod : mean * (1000 * n) ≤ mean * cfg.factorMilli := Nat.mul_le_mul_left _ hfactor
  have hcomm : mean * (1000 * n) = n * mean * 1000 := by
    rw [Nat.mul_comm mean, Nat.mul_assoc, Nat.mul_comm 1000]
  have hline : e ≤ mean * cfg.factorMilli / 1000 :=
    (Nat.le_div_iff_mul_le (by decide)).mpr (by omega)
  exact Nat.le_min.mpr ⟨hline, hmax⟩

/-- The line of a mean is not below the values that the factor allows.  Both ends of
the interval are in milli units and saturate. -/
theorem le_thresholdMilli (cfg : EwmaConfig) {l h mean : Nat} (hlh : l ≤ h)
    (hfactor : 1000 * h ≤ cfg.factorMilli * l) (hmean : saturatingMul64 l 1000 ≤ mean) :
    saturatingMul64 h 1000 ≤ cfg.thresholdMilli mean := by
  refine le_trans ?_ (cfg.thresholdMilli_mono hmean)
  have hcomm : cfg.factorMilli * l = l * cfg.factorMilli := Nat.mul_comm _ _
  unfold saturatingMul64 thresholdMilli toU64
  rcases Nat.le_total (l * 1000) u64Max with hle | hle
  · have hexact : l * 1000 * cfg.factorMilli / 1000 = l * cfg.factorMilli := by
      rw [Nat.mul_right_comm]
      exact Nat.mul_div_cancel _ (by decide)
    rw [Nat.min_eq_left hle, hexact]
    omega
  · -- the lower end saturates, so the factor is at least one
    have hl : 0 < l := by
      unfold u64Max at hle
      omega
    have hone : 1000 ≤ cfg.factorMilli := by
      refine Nat.le_of_mul_le_mul_right (c := l) ?_ hl
      omega
    have hline : u64Max ≤ u64Max * cfg.factorMilli / 1000 :=
      (Nat.le_div_iff_mul_le (by decide)).mpr (Nat.mul_le_mul_left _ hone)
    rw [Nat.min_eq_right hle]
    omega

end EwmaConfig

end Echofront
