import Mathlib.Algebra.GroupWithZero.Nat
import Mathlib.Algebra.Ring.Int.Defs
import Mathlib.Tactic.Common

/-!
# Machine integers

The source counts in `u32`, `u64`, `usize` and `i64`.  The model counts in
`Nat` and `Int`, and it writes the width down where a run can reach it:

* a saturating operation is its own definition below, with its bound;
* a `u32` counter that a plain increment moves (one for an outcome, a probe or a call
  that begins) and the round robin cursor are reduced modulo their width, as a release
  build computes them;
* the token bucket takes its caps from the configuration, up to `i64::MAX`,
  so its sums go through `wrapI64`.

The counter `in_flight` is one of the `u32` counters with a plain increment.  A caller may
set it before it adds a backend, and nothing bounds how many calls are begun, so a run can
take it past its width.

What counts whole events of a run in 64 bits (`served`, `trips`, `ejections`,
`granted`) and the attempts of one request (`attempt_no`) is a plain `Nat`.
`current_weight` is a plain `Int` in `Pool.selectWeighted`.  `Pool.selectWeightedI64` wraps
every sum of it, and the range in which the two agree is a theorem, not an assumption.
-/

namespace Echofront

/-- `u32::MAX`. -/
def u32Max : Nat := 2 ^ 32 - 1

/-- `u64::MAX`. -/
def u64Max : Nat := 2 ^ 64 - 1

/-- `i64::MAX`. -/
def i64Max : Int := 2 ^ 63 - 1

/-- `u64::saturating_add`.  `saturating_sub` is `Nat` subtraction. -/
def saturatingAdd64 (a b : Nat) : Nat := min (a + b) u64Max

/-- `u64::saturating_mul`. -/
def saturatingMul64 (a b : Nat) : Nat := min (a * b) u64Max

/-- `u32::saturating_mul`. -/
def saturatingMul32 (a b : Nat) : Nat := min (a * b) u32Max

/-- `u64::try_from(x).unwrap_or(u64::MAX)` of a 128 bit value. -/
def toU64 (a : Nat) : Nat := min a u64Max

/-- `usize::wrapping_add`, on a 64 bit target. -/
def wrappingAdd64 (a b : Nat) : Nat := (a + b) % 2 ^ 64

/-- `c += 1` on a `u32` counter. -/
def incr32 (c : Nat) : Nat := (c + 1) % 2 ^ 32

/-- The two's complement reading of an exact result as an `i64`. -/
def wrapI64 (x : Int) : Int := x.bmod (2 ^ 64)

/-- A saturating sum never exceeds the exact one. -/
theorem saturatingAdd64_le (a b : Nat) : saturatingAdd64 a b ≤ a + b :=
  Nat.min_le_left _ _

/-- An increment below `u32::MAX` is exact. -/
theorem incr32_eq {c : Nat} (h : c < u32Max) : incr32 c = c + 1 := by
  unfold u32Max at h
  exact Nat.mod_eq_of_lt (by omega)

/-- A wrapped increment never exceeds the exact one. -/
theorem incr32_le (c : Nat) : incr32 c ≤ c + 1 := Nat.mod_le _ _

/-- An increment is a `u32`. -/
theorem incr32_le_max (c : Nat) : incr32 c ≤ u32Max := by
  have hlt : (c + 1) % 2 ^ 32 < 2 ^ 32 := Nat.mod_lt _ (by decide)
  unfold incr32 u32Max
  omega

/-- A decrement takes an increment back, unless the increment wraps. -/
theorem incr32_sub_one_eq_iff {c : Nat} : incr32 c - 1 = c ↔ c < u32Max := by
  refine ⟨fun h => ?_, fun h => by rw [incr32_eq h, Nat.add_sub_cancel]⟩
  have hle := incr32_le_max c
  have hpos : 0 < u32Max := by decide
  omega

/-- An exact result in the range of `i64` is not changed. -/
theorem wrapI64_eq {x : Int} (hlo : -i64Max - 1 ≤ x) (hhi : x ≤ i64Max) :
    wrapI64 x = x := by
  unfold i64Max at hlo hhi
  exact Int.bmod_eq_of_le (by omega) (by omega)

/-- Only the last of several sums has to be wrapped. -/
theorem wrapI64_wrapI64_add (x y : Int) : wrapI64 (wrapI64 x + y) = wrapI64 (x + y) :=
  Int.bmod_add_bmod

theorem wrapI64_sub_wrapI64 (x y : Int) : wrapI64 (x + -wrapI64 y) = wrapI64 (x + -y) := by
  rw [← Int.sub_eq_add_neg, ← Int.sub_eq_add_neg]
  exact Int.sub_bmod_bmod

end Echofront
