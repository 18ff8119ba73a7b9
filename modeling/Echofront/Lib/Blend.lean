import Mathlib.Algebra.Order.Group.Nat
import Mathlib.Logic.Function.Iterate
import Mathlib.Tactic.Common

/-!
# Blending with rounding down

`blend d a s x` moves `x` towards `s` by `a` parts of `d`, in whole numbers, rounded
down.  Rounding makes the two directions differ.

* From above every step makes progress, so `s` is reached exactly
  (`iterate_blend_of_ge`).
* From below a step makes progress only while `a` parts of the gap are a whole part
  (`blend_eq_self_iff`), so the steps come to a rest below `s`
  (`iterate_blend_of_le`).
-/

namespace Echofront.Lib

/-- `a` parts of `s` and the rest of `x`, out of `d` parts, rounded down. -/
def blend (d a s x : Nat) : Nat := (a * s + (d - a) * x) / d

variable {d a s x : Nat}

/-- The parts of one value are the value. -/
theorem parts_add (ha : a ≤ d) (x : Nat) : a * x + (d - a) * x = d * x := by
  rw [← Nat.add_mul, Nat.add_sub_cancel' ha]

theorem blend_self (hd : 0 < d) (ha : a ≤ d) (s : Nat) : blend d a s s = s := by
  rw [blend, parts_add ha, Nat.mul_div_cancel_left _ hd]

theorem blend_mono {s' x' : Nat} (hs : s ≤ s') (hx : x ≤ x') :
    blend d a s x ≤ blend d a s' x' :=
  Nat.div_le_div_right (Nat.add_le_add (Nat.mul_le_mul_left _ hs) (Nat.mul_le_mul_left _ hx))

/-- A blend of two values of an interval is in the interval. -/
theorem blend_within {lo hi : Nat} (hd : 0 < d) (ha : a ≤ d) (hs : lo ≤ s ∧ s ≤ hi)
    (hx : lo ≤ x ∧ x ≤ hi) : lo ≤ blend d a s x ∧ blend d a s x ≤ hi := by
  have hlo := blend_mono (d := d) (a := a) hs.1 hx.1
  have hhi := blend_mono (d := d) (a := a) hs.2 hx.2
  rw [blend_self hd ha] at hlo hhi
  exact ⟨hlo, hhi⟩

/-- From above a step always makes progress. -/
theorem blend_lt (hd : 0 < d) (ha : a ≤ d) (hpos : 1 ≤ a) (h : s < x) :
    blend d a s x < x := by
  have hparts := parts_add ha x
  have hstep : a * s < a * x := Nat.mul_lt_mul_of_pos_left h hpos
  rw [blend, Nat.div_lt_iff_lt_mul hd, Nat.mul_comm x d]
  omega

/-- From below a step adds the whole part of `a` parts of the gap. -/
theorem blend_of_le (hd : 0 < d) (ha : a ≤ d) (h : x ≤ s) :
    blend d a s x = x + a * (s - x) / d := by
  have hparts := parts_add ha x
  have hgap : a * s = a * x + a * (s - x) := by
    rw [← Nat.mul_add, Nat.add_sub_cancel' h]
  have hsum : a * s + (d - a) * x = a * (s - x) + x * d := by
    rw [Nat.mul_comm x d]
    omega
  rw [blend, hsum, Nat.add_mul_div_right _ _ hd, Nat.add_comm]

/-- From below the steps rest exactly when `a` parts of the gap are less than a whole
one. -/
theorem blend_eq_self_iff (hd : 0 < d) (ha : a ≤ d) (h : x ≤ s) :
    blend d a s x = x ↔ a * (s - x) < d := by
  rw [blend_of_le hd ha h]
  constructor
  · intro heq
    have hzero : a * (s - x) / d = 0 := by omega
    exact (Nat.div_eq_zero_iff_lt hd).mp hzero
  · intro hlt
    rw [Nat.div_eq_of_lt hlt, Nat.add_zero]

/-! ## Steps towards one value -/

/-- From above the steps reach `s`, and stay there. -/
theorem iterate_blend_of_ge (hd : 0 < d) (ha : a ≤ d) (hpos : 1 ≤ a) {n : Nat}
    (h : s ≤ x) (hn : x ≤ s + n) : (blend d a s)^[n] x = s := by
  induction n generalizing x with
  | zero => exact Nat.le_antisymm hn h
  | succ n ih =>
    rw [Function.iterate_succ_apply]
    have hge : s ≤ blend d a s x := (blend_within hd ha ⟨le_refl s, h⟩ ⟨h, le_refl x⟩).1
    refine ih hge ?_
    rcases Nat.lt_or_eq_of_le h with hlt | rfl
    · have hstep := blend_lt hd ha hpos hlt
      omega
    · rw [blend_self hd ha]
      exact Nat.le_add_right _ _

/-- From below the steps rise and stay below `s`. -/
theorem iterate_blend_le (hd : 0 < d) (ha : a ≤ d) (h : x ≤ s) (n : Nat) :
    (blend d a s)^[n] x ≤ (blend d a s)^[n + 1] x ∧ (blend d a s)^[n + 1] x ≤ s := by
  induction n generalizing x with
  | zero => exact blend_within hd ha ⟨h, le_refl s⟩ ⟨le_refl x, h⟩
  | succ n ih =>
    rw [Function.iterate_succ_apply, Function.iterate_succ_apply]
    exact ih (blend_within hd ha ⟨h, le_refl s⟩ ⟨le_refl x, h⟩).2

/-- From below the steps come to a rest, at a gap of which `a` parts are less than a
whole one. -/
theorem iterate_blend_of_le (hd : 0 < d) (ha : a ≤ d) {n : Nat} (h : x ≤ s)
    (hn : s ≤ x + n) : a * (s - (blend d a s)^[n] x) < d := by
  induction n generalizing x with
  | zero =>
    have hzero : s - x = 0 := Nat.sub_eq_zero_of_le hn
    simpa [hzero] using hd
  | succ n ih =>
    rw [Function.iterate_succ_apply]
    have hle : blend d a s x ≤ s := (blend_within hd ha ⟨h, le_refl s⟩ ⟨le_refl x, h⟩).2
    by_cases hrest : blend d a s x = x
    · rw [hrest, Function.iterate_fixed hrest]
      exact (blend_eq_self_iff hd ha h).mp hrest
    · have hge : x ≤ blend d a s x := (blend_within hd ha ⟨h, le_refl s⟩ ⟨le_refl x, h⟩).1
      exact ih hle (by omega)

end Echofront.Lib
