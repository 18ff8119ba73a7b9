import Echofront.Machine
import Mathlib.Tactic.Ring

/-!
# The retry budget

The token bucket of `src/retry.rs`, in milli tokens.  The caps come from the
configuration and may be as large as `i64::MAX`, so every `i64` result is
wrapped; `RetryConfig.Sane` is the range in which no wrap happens.

`spend` and `grants` iterate `try_retry`.  `Filled` is the invariant of the
bucket: in range, and never above the cap.
-/

namespace Echofront

/-- `RetryConfig`. -/
structure RetryConfig where
  maxRetriesPerRequest : Nat
  depositMilli : Int
  retryCostMilli : Int
  maxMilli : Int
deriving DecidableEq, Repr

/-- `RetryConfig::default`. -/
def RetryConfig.default : RetryConfig where
  maxRetriesPerRequest := 2
  depositMilli := 200
  retryCostMilli := 1000
  maxMilli := 10000

/-- `RetryBudget`. -/
structure RetryBudget where
  cfg : RetryConfig
  tokensMilli : Int
  granted : Nat
  denied : Nat
deriving DecidableEq, Repr

namespace RetryBudget

def new (cfg : RetryConfig) : RetryBudget where
  cfg := cfg
  tokensMilli := cfg.maxMilli
  granted := 0
  denied := 0

def maxRetriesPerRequest (b : RetryBudget) : Nat := b.cfg.maxRetriesPerRequest

def onRequest (b : RetryBudget) : RetryBudget :=
  { b with tokensMilli := min (wrapI64 (b.tokensMilli + b.cfg.depositMilli)) b.cfg.maxMilli }

def tryRetry (b : RetryBudget) : Bool × RetryBudget :=
  if b.cfg.retryCostMilli ≤ b.tokensMilli then
    (true, { b with
      tokensMilli := wrapI64 (b.tokensMilli - b.cfg.retryCostMilli)
      granted := b.granted + 1 })
  else (false, { b with denied := b.denied + 1 })

/-- The bucket after `k` calls of `try_retry`. -/
def spend (b : RetryBudget) : Nat → RetryBudget
  | 0 => b
  | k + 1 => (b.spend k).tryRetry.2

/-- Whether `k` calls of `try_retry` in a row are all granted. -/
def grants (b : RetryBudget) : Nat → Bool
  | 0 => true
  | k + 1 => b.grants k && (b.spend k).tryRetry.1

theorem grants_of_le {b : RetryBudget} {j k : Nat} (h : b.grants k = true) (hle : j ≤ k) :
    b.grants j = true := by
  induction k with
  | zero =>
    obtain rfl : j = 0 := Nat.le_zero.mp hle
    rfl
  | succ k ih =>
    rcases Nat.lt_or_eq_of_le hle with hlt | rfl
    · rw [grants, Bool.and_eq_true] at h
      exact ih h.1 (Nat.le_of_lt_succ hlt)
    · exact h

/-- How many of up to `n` calls of `try_retry` in a row are granted. -/
def affords (b : RetryBudget) : Nat → Nat
  | 0 => 0
  | n + 1 => if b.grants (n + 1) then n + 1 else b.affords n

theorem affords_le (b : RetryBudget) (n : Nat) : b.affords n ≤ n := by
  induction n with
  | zero => exact Nat.le_refl 0
  | succ n ih =>
    rw [affords]
    split_ifs
    · exact Nat.le_refl _
    · exact Nat.le_succ_of_le ih

theorem le_affords_iff {b : RetryBudget} {j n : Nat} (hj : j ≤ n) :
    j ≤ b.affords n ↔ b.grants j = true := by
  induction n with
  | zero =>
    obtain rfl : j = 0 := Nat.le_zero.mp hj
    exact ⟨fun _ => rfl, fun _ => Nat.zero_le _⟩
  | succ n ih =>
    rw [affords]
    split_ifs with hg
    · exact ⟨fun _ => grants_of_le hg hj, fun _ => hj⟩
    · rcases Nat.lt_or_eq_of_le hj with hlt | rfl
      · exact ih (Nat.le_of_lt_succ hlt)
      · exact ⟨fun hle => absurd (Nat.le_trans hle (b.affords_le n)) (Nat.not_succ_le_self n),
          fun h => absurd h hg⟩

/-- The two ways `try_retry` can go. -/
theorem tryRetry_cases (b : RetryBudget) :
    (b.cfg.retryCostMilli ≤ b.tokensMilli ∧ b.tryRetry =
      (true, { b with
        tokensMilli := wrapI64 (b.tokensMilli - b.cfg.retryCostMilli)
        granted := b.granted + 1 })) ∨
    (b.tokensMilli < b.cfg.retryCostMilli ∧
      b.tryRetry = (false, { b with denied := b.denied + 1 })) := by
  unfold tryRetry
  split_ifs with h
  · exact Or.inl ⟨h, rfl⟩
  · exact Or.inr ⟨Int.lt_of_not_ge h, rfl⟩

/-- A retry is granted if the bucket holds its cost. -/
theorem tryRetry_iff {b : RetryBudget} :
    b.tryRetry.1 = true ↔ b.cfg.retryCostMilli ≤ b.tokensMilli := by
  rcases b.tryRetry_cases with ⟨hpay, heq⟩ | ⟨hlt, heq⟩
  · simp [heq, hpay]
  · simp [heq, Int.not_le.mpr hlt]

@[simp] theorem tryRetry_cfg (b : RetryBudget) : b.tryRetry.2.cfg = b.cfg := by
  rcases b.tryRetry_cases with ⟨_, h⟩ | ⟨_, h⟩ <;> rw [h]

/-- Every grant is counted, and nothing else is. -/
theorem granted_tryRetry (b : RetryBudget) :
    b.tryRetry.2.granted = b.granted + if b.tryRetry.1 then 1 else 0 := by
  rcases b.tryRetry_cases with ⟨_, h⟩ | ⟨_, h⟩ <;> simp [h]

@[simp] theorem spend_cfg (b : RetryBudget) (k : Nat) : (b.spend k).cfg = b.cfg := by
  induction k with
  | zero => rfl
  | succ k ih => rw [spend, tryRetry_cfg, ih]

/-- A bucket in the range of `i64` that holds the cost of `k` retries grants them. -/
theorem grants_of_tokens {b : RetryBudget} (hcost : 0 ≤ b.cfg.retryCostMilli)
    (hmax : b.tokensMilli ≤ i64Max) {k : Nat}
    (hk : k * b.cfg.retryCostMilli ≤ b.tokensMilli) :
    b.grants k = true ∧ (b.spend k).tokensMilli = b.tokensMilli - k * b.cfg.retryCostMilli := by
  induction k with
  | zero => exact ⟨rfl, by simp [spend]⟩
  | succ k ih =>
    have hsucc : ((k + 1 : Nat) : Int) * b.cfg.retryCostMilli =
        k * b.cfg.retryCostMilli + b.cfg.retryCostMilli := by
      push_cast
      ring
    rw [hsucc] at hk
    have hpos : 0 ≤ (k : Int) * b.cfg.retryCostMilli :=
      Int.mul_nonneg (Int.natCast_nonneg k) hcost
    obtain ⟨hg, ht⟩ := ih (by omega)
    have hpay : (b.spend k).cfg.retryCostMilli ≤ (b.spend k).tokensMilli := by
      rw [spend_cfg, ht]
      omega
    refine ⟨by rw [grants, hg, tryRetry_iff.mpr hpay]; rfl, ?_⟩
    rcases (b.spend k).tryRetry_cases with ⟨_, heq⟩ | ⟨hlt, _⟩
    · have hi : i64Max = 2 ^ 63 - 1 := rfl
      rw [spend, heq, hsucc, spend_cfg, ht]
      exact (wrapI64_eq (by omega) (by omega)).trans (by omega)
    · exact absurd hpay (Int.not_le.mpr hlt)

/-- A deposit leaves the bucket in the range of `i64`. -/
theorem tokensMilli_onRequest_le (b : RetryBudget) : b.onRequest.tokensMilli ≤ i64Max := by
  have hi : i64Max = 2 ^ 63 - 1 := rfl
  have hwrap : wrapI64 (b.tokensMilli + b.cfg.depositMilli) < 2 ^ 63 := by
    have hlt := Int.bmod_lt (x := b.tokensMilli + b.cfg.depositMilli) (m := 2 ^ 64) (by decide)
    unfold wrapI64
    omega
  simp only [onRequest]
  omega

theorem granted_spend {b : RetryBudget} {k : Nat} (h : b.grants k = true) :
    (b.spend k).granted = b.granted + k := by
  induction k with
  | zero => rfl
  | succ k ih =>
    rw [grants, Bool.and_eq_true] at h
    rw [spend, granted_tryRetry, h.2, ih h.1, if_pos rfl, Nat.add_assoc]

end RetryBudget

/-- The configurations for which the bucket needs no wrap: a positive cost, and
a cap that leaves room for one more deposit. -/
structure RetryConfig.Sane (cfg : RetryConfig) : Prop where
  cost_pos : 0 < cfg.retryCostMilli
  deposit_nonneg : 0 ≤ cfg.depositMilli
  max_nonneg : 0 ≤ cfg.maxMilli
  room : cfg.maxMilli + cfg.depositMilli ≤ i64Max

namespace RetryBudget

/-- The bucket holds between zero and its cap. -/
structure Filled (b : RetryBudget) : Prop where
  nonneg : 0 ≤ b.tokensMilli
  le_max : b.tokensMilli ≤ b.cfg.maxMilli

theorem filled_new {cfg : RetryConfig} (h : cfg.Sane) : (new cfg).Filled :=
  ⟨h.max_nonneg, Int.le_refl _⟩

/-- A deposit that has room is exact, up to the cap. -/
theorem tokensMilli_onRequest {b : RetryBudget} (hdeposit : 0 ≤ b.cfg.depositMilli)
    (h : b.Filled) (hroom : b.tokensMilli + b.cfg.depositMilli ≤ i64Max) :
    b.onRequest.tokensMilli = min (b.tokensMilli + b.cfg.depositMilli) b.cfg.maxMilli := by
  obtain ⟨h0, _⟩ := h
  have hi : i64Max = 2 ^ 63 - 1 := rfl
  rw [onRequest, wrapI64_eq (by omega) hroom]

/-- A payment out of a bucket in range is exact. -/
theorem tryRetry_of_pay {b : RetryBudget} (hcost : 0 ≤ b.cfg.retryCostMilli)
    (hmax : b.cfg.maxMilli ≤ i64Max) (h : b.Filled)
    (hpay : b.cfg.retryCostMilli ≤ b.tokensMilli) :
    b.tryRetry = (true, { b with
      tokensMilli := b.tokensMilli - b.cfg.retryCostMilli
      granted := b.granted + 1 }) := by
  obtain ⟨h0, hle⟩ := h
  have hi : i64Max = 2 ^ 63 - 1 := rfl
  rw [tryRetry, if_pos hpay, wrapI64_eq (by omega) (by omega)]

/-- A deposit is capped. -/
theorem onRequest_spec {b : RetryBudget} (hc : b.cfg.Sane) (h : b.Filled) :
    b.onRequest.Filled ∧ b.onRequest.tokensMilli ≤ b.tokensMilli + b.cfg.depositMilli := by
  obtain ⟨_, hd, hm, hroom⟩ := hc
  obtain ⟨h0, hle⟩ := h
  have heq := tokensMilli_onRequest hd ⟨h0, hle⟩ (by omega)
  refine ⟨⟨?_, ?_⟩, ?_⟩
  · rw [heq]
    omega
  · rw [heq]
    exact Int.min_le_right _ _
  · rw [heq]
    exact Int.min_le_left _ _

/-- A grant pays its cost out of the bucket. -/
theorem tryRetry_spec {b : RetryBudget} (hc : b.cfg.Sane) (h : b.Filled) :
    b.tryRetry.2.Filled ∧ b.tryRetry.2.tokensMilli =
      b.tokensMilli - if b.tryRetry.1 then b.cfg.retryCostMilli else 0 := by
  obtain ⟨hcost, hd, hm, hroom⟩ := hc
  obtain ⟨h0, hle⟩ := h
  rcases b.tryRetry_cases with ⟨hpay, _⟩ | ⟨_, heq⟩
  · rw [tryRetry_of_pay (by omega) (by omega) ⟨h0, hle⟩ hpay]
    exact ⟨⟨by simp only; omega, by simp only; omega⟩, by simp⟩
  · rw [heq]
    exact ⟨⟨h0, hle⟩, by simp⟩

/-- What a row of grants has paid. -/
theorem spend_spec {b : RetryBudget} (hc : b.cfg.Sane) (h : b.Filled) {k : Nat}
    (hk : b.grants k = true) :
    (b.spend k).Filled ∧
      (b.spend k).tokensMilli = b.tokensMilli - k * b.cfg.retryCostMilli := by
  induction k with
  | zero => exact ⟨h, by simp [spend]⟩
  | succ k ih =>
    rw [grants, Bool.and_eq_true] at hk
    obtain ⟨hf, ht⟩ := ih hk.1
    have hc' : (b.spend k).cfg.Sane := by rwa [spend_cfg]
    obtain ⟨hf', ht'⟩ := tryRetry_spec hc' hf
    refine ⟨hf', ?_⟩
    rw [spend, ht', hk.2, ht, spend_cfg, if_pos rfl]
    push_cast
    ring

end RetryBudget

end Echofront
