import Echofront.Retry
import Echofront.Lib.Run

/-!
# Runs of the retry bucket

The bucket starts at its cap, and a deposit is added before the cap is applied.  So the
sum is computed with the cap and one more deposit, and whether it fits in an `i64` is a
question about the configuration.

* `Fits` says that the `i64` operation of a call does not overflow, and `HasRoom` that a
  deposit does not.  The payment of a retry never does.
* `Kept` is what a run of the bucket promises, and `kept_apply` the step lemma of its
  invariant.
* `kept_iff` says which runs keep the promise, and for which configurations all runs do.
-/

namespace Echofront

open Lib

/-- A call on the bucket. -/
inductive BudgetOp where
  | onRequest
  | tryRetry
deriving DecidableEq

/-- No amount of the configuration is negative, and each is an `i64`. -/
structure RetryConfig.Nonneg (cfg : RetryConfig) : Prop where
  deposit : 0 ≤ cfg.depositMilli ∧ cfg.depositMilli ≤ i64Max
  cost : 0 ≤ cfg.retryCostMilli ∧ cfg.retryCostMilli ≤ i64Max
  max : 0 ≤ cfg.maxMilli ∧ cfg.maxMilli ≤ i64Max

namespace RetryBudget

def apply (b : RetryBudget) : BudgetOp → RetryBudget
  | .onRequest => b.onRequest
  | .tryRetry => b.tryRetry.2

end RetryBudget

/-- The bucket as a system over its calls. -/
def budgetSystem : System RetryBudget BudgetOp where
  init b := ∃ cfg, b = .new cfg
  ok _ _ := True
  step := RetryBudget.apply

namespace RetryBudget

/-- The `i64` operation of the call does not overflow. -/
def Fits (b : RetryBudget) : BudgetOp → Prop
  | .onRequest =>
    -i64Max - 1 ≤ b.tokensMilli + b.cfg.depositMilli ∧
      b.tokensMilli + b.cfg.depositMilli ≤ i64Max
  | .tryRetry => b.cfg.retryCostMilli ≤ b.tokensMilli →
    -i64Max - 1 ≤ b.tokensMilli - b.cfg.retryCostMilli ∧
      b.tokensMilli - b.cfg.retryCostMilli ≤ i64Max

/-- The bucket has room for the deposit, if the call is one. -/
def HasRoom (b : RetryBudget) (op : BudgetOp) : Prop :=
  op = .onRequest → b.tokensMilli + b.cfg.depositMilli ≤ i64Max

/-- What the bucket promises of a run: no operation overflows, the balance is between
zero and the cap, and a retry is granted exactly if the balance covers its cost, and paid
only then. -/
structure Kept (cfg : RetryConfig) (ops : List BudgetOp) : Prop where
  fits : budgetSystem.Always Fits (.new cfg) ops
  range : ∀ pre post, ops = pre ++ post →
    0 ≤ (budgetSystem.exec (.new cfg) pre).tokensMilli ∧
      (budgetSystem.exec (.new cfg) pre).tokensMilli ≤ cfg.maxMilli
  granted : ∀ pre post, ops = pre ++ .tryRetry :: post →
    ((budgetSystem.exec (.new cfg) pre).tryRetry.1 = true ↔
      cfg.retryCostMilli ≤ (budgetSystem.exec (.new cfg) pre).tokensMilli)
  denied : ∀ pre post, ops = pre ++ .tryRetry :: post →
    (budgetSystem.exec (.new cfg) pre).tryRetry.1 = false →
    (budgetSystem.exec (.new cfg) (pre ++ [.tryRetry])).tokensMilli =
      (budgetSystem.exec (.new cfg) pre).tokensMilli

theorem Fits.hasRoom {b : RetryBudget} {op : BudgetOp} (h : b.Fits op) : b.HasRoom op := by
  rintro rfl
  exact h.2

theorem apply_cfg (b : RetryBudget) (op : BudgetOp) : (b.apply op).cfg = b.cfg := by
  cases op with
  | onRequest => rfl
  | tryRetry => exact b.tryRetry_cfg

theorem exec_cfg (b : RetryBudget) (ops : List BudgetOp) :
    (budgetSystem.exec b ops).cfg = b.cfg := by
  induction ops generalizing b with
  | nil => rfl
  | cons op ops ih => exact (ih (b.apply op)).trans (b.apply_cfg op)

/-- The step lemma: with room for the deposit no call overflows, and the balance stays
between zero and the cap. -/
theorem kept_apply {b : RetryBudget} (hc : b.cfg.Nonneg) (h : b.Filled) {op : BudgetOp}
    (hroom : b.HasRoom op) : b.Fits op ∧ (b.apply op).Filled := by
  obtain ⟨⟨hdeposit, _⟩, ⟨hcost, _⟩, ⟨hcap, hmax⟩⟩ := hc
  obtain ⟨h0, hle⟩ := h
  have hi : i64Max = 2 ^ 63 - 1 := rfl
  cases op with
  | onRequest =>
    have hsum := hroom rfl
    have heq := tokensMilli_onRequest hdeposit ⟨h0, hle⟩ hsum
    refine ⟨⟨by omega, hsum⟩, ⟨?_, ?_⟩⟩
    · show 0 ≤ b.onRequest.tokensMilli
      rw [heq]
      omega
    · show b.onRequest.tokensMilli ≤ b.cfg.maxMilli
      rw [heq]
      exact Int.min_le_right _ _
  | tryRetry =>
    rcases b.tryRetry_cases with ⟨hpay, _⟩ | ⟨hlt, heq⟩
    · refine ⟨fun _ => ⟨by omega, by omega⟩, ?_⟩
      rw [apply, tryRetry_of_pay hcost hmax ⟨h0, hle⟩ hpay]
      exact ⟨Int.sub_nonneg_of_le hpay, (Int.sub_le_self _ hcost).trans hle⟩
    · refine ⟨fun hpay => absurd hpay (Int.not_le.mpr hlt), ?_⟩
      rw [apply, heq]
      exact ⟨h0, hle⟩

/-- The run lemma. -/
theorem kept_exec {b : RetryBudget} (hc : b.cfg.Nonneg) (h : b.Filled) {ops : List BudgetOp}
    (hroom : budgetSystem.Always HasRoom b ops) :
    budgetSystem.Always Fits b ops ∧ (budgetSystem.exec b ops).Filled := by
  induction ops generalizing b with
  | nil => exact ⟨trivial, h⟩
  | cons op ops ih =>
    obtain ⟨hfits, hfilled⟩ := kept_apply hc h hroom.1
    have hc' : (b.apply op).cfg.Nonneg := by rwa [apply_cfg]
    obtain ⟨hrest, hend⟩ := ih hc' hfilled hroom.2
    exact ⟨⟨hfits, hrest⟩, hend⟩

/-- A run keeps what the bucket promises exactly if it has room for each deposit. -/
theorem kept_iff_hasRoom {cfg : RetryConfig} (hc : cfg.Nonneg) (ops : List BudgetOp) :
    Kept cfg ops ↔ budgetSystem.Always HasRoom (.new cfg) ops := by
  have hnew : (new cfg).Filled := ⟨hc.max.1, le_refl _⟩
  constructor
  · intro h
    exact h.fits.mono fun _ _ => Fits.hasRoom
  · intro h
    refine ⟨(kept_exec hc hnew h).1, fun pre post heq => ?_, fun pre _ _ => ?_,
      fun pre post _ hno => ?_⟩
    · rw [heq, System.always_append_iff] at h
      obtain ⟨_, hfilled⟩ := kept_exec hc hnew h.1
      have hle := hfilled.le_max
      rw [exec_cfg] at hle
      exact ⟨hfilled.nonneg, hle⟩
    · rw [tryRetry_iff, exec_cfg]
      rfl
    · rw [System.exec_append]
      rcases (budgetSystem.exec (new cfg) pre).tryRetry_cases with ⟨_, heq⟩ | ⟨_, heq⟩
      · rw [heq] at hno
        exact absurd hno (by simp)
      · show (RetryBudget.tryRetry _).2.tokensMilli = _
        rw [heq]

/-- With a cap that leaves room for one more deposit, every deposit has room. -/
theorem always_hasRoom {b : RetryBudget} (hc : b.cfg.Nonneg) (h : b.Filled)
    (hroom : b.cfg.maxMilli + b.cfg.depositMilli ≤ i64Max) (ops : List BudgetOp) :
    budgetSystem.Always HasRoom b ops := by
  induction ops generalizing b with
  | nil => trivial
  | cons op ops ih =>
    have hle := h.le_max
    have hop : b.HasRoom op := fun _ => by omega
    obtain ⟨_, hfilled⟩ := kept_apply hc h hop
    have hcfg := b.apply_cfg op
    exact ⟨hop, ih (hcfg.symm ▸ hc) hfilled (hcfg.symm ▸ hroom)⟩

/-- The bucket stays in range, and no operation on it overflows, in every run of a
configuration without negative amounts, if and only if the cap leaves room for one more
deposit.  A single run does so exactly if each of its deposits finds room. -/
theorem kept_iff {cfg : RetryConfig} (hc : cfg.Nonneg) :
    (∀ ops, Kept cfg ops ↔ budgetSystem.Always HasRoom (.new cfg) ops) ∧
    ((∀ ops, Kept cfg ops) ↔ cfg.maxMilli + cfg.depositMilli ≤ i64Max) := by
  refine ⟨kept_iff_hasRoom hc, fun h => ?_, fun h ops => ?_⟩
  · -- the first deposit finds the bucket full
    have hroom := (kept_iff_hasRoom hc [.onRequest]).mp (h [.onRequest])
    exact hroom.1 rfl
  · exact (kept_iff_hasRoom hc ops).mpr (always_hasRoom hc ⟨hc.max.1, le_refl _⟩ h ops)

/-- The default bucket keeps its promise in a run. -/
theorem kept_iff_default : Kept .default [.tryRetry, .onRequest, .tryRetry] :=
  (kept_iff ⟨by decide, by decide, by decide⟩).2.mpr (by decide) _

/-- A bucket that is meant to have no limit. -/
def unlimited : RetryConfig := { RetryConfig.default with maxMilli := i64Max }

/-- The first request overflows it: the sum is no `i64`, the balance is negative, and the
next retry is denied. -/
theorem unlimited_overflows :
    unlimited.Nonneg ∧ ¬ (new unlimited).Fits .onRequest ∧
      (new unlimited).onRequest.tokensMilli < 0 ∧
      (new unlimited).onRequest.tryRetry.1 = false ∧ ¬ Kept unlimited [.onRequest] := by
  have hno : ¬ (new unlimited).Fits .onRequest := fun h => absurd h.2 (by decide)
  exact ⟨⟨by decide, by decide, by decide⟩, hno, by decide, by decide,
    fun h => hno h.fits.1⟩

end RetryBudget

end Echofront
