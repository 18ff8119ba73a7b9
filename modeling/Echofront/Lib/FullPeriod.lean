import Mathlib.Data.Finset.Card
import Mathlib.Data.Int.CardIntervalMod
import Mathlib.Tactic.Common

/-!
# Sequences of full period

A sequence of numbers below `n` has full period when it repeats after `n` entries and no
entry comes twice before.  So each number comes once in a period (`existsUnique`), a
property holds of as many entries as numbers (`count_comp`), and the remainders of the
entries are as even as those of the numbers (`count_mod`).
-/

namespace Echofront.Lib

/-- A sequence that runs through all numbers below `n`. -/
structure FullPeriod (n : Nat) (f : Nat → Nat) : Prop where
  lt : ∀ k, f k < n
  injOn : Set.InjOn f (Finset.range n)
  periodic : ∀ k, f (k + n) = f k

namespace FullPeriod

variable {n : Nat} {f : Nat → Nat}

theorem image_range (h : FullPeriod n f) : (Finset.range n).image f = Finset.range n := by
  refine Finset.eq_of_subset_of_card_le (fun v hv => ?_) ?_
  · obtain ⟨k, _, rfl⟩ := Finset.mem_image.mp hv
    exact Finset.mem_range.mpr (h.lt k)
  · rw [Finset.card_image_of_injOn h.injOn]

/-- Each number comes once in a period. -/
theorem existsUnique (h : FullPeriod n f) {v : Nat} (hv : v < n) : ∃! k, k < n ∧ f k = v := by
  have hmem : v ∈ (Finset.range n).image f := by
    rw [h.image_range]
    exact Finset.mem_range.mpr hv
  obtain ⟨k, hk, hfk⟩ := Finset.mem_image.mp hmem
  refine ⟨k, ⟨Finset.mem_range.mp hk, hfk⟩, fun j hj => ?_⟩
  obtain ⟨hjn, hfj⟩ := hj
  exact h.injOn (Finset.mem_range.mpr hjn) hk (hfj.trans hfk.symm)

/-- A property holds of as many entries of a period as numbers. -/
theorem count_comp (h : FullPeriod n f) (p : Nat → Prop) [DecidablePred p] :
    Nat.count (fun k => p (f k)) n = Nat.count p n := by
  have hinj : Set.InjOn f ((Finset.range n).filter (fun k => p (f k))) :=
    h.injOn.mono (Finset.coe_subset.mpr (Finset.filter_subset _ _))
  calc Nat.count (fun k => p (f k)) n
      = ((Finset.range n).filter (fun k => p (f k))).card :=
        Nat.count_eq_card_filter_range (fun k => p (f k)) n
    _ = (((Finset.range n).filter (fun k => p (f k))).image f).card :=
        (Finset.card_image_of_injOn hinj).symm
    _ = (((Finset.range n).image f).filter p).card := by rw [Finset.filter_image]
    _ = Nat.count p n := by rw [h.image_range, Nat.count_eq_card_filter_range]

/-- The remainders of the entries of a period: each comes `n / m` times, and those below
`n % m` once more. -/
theorem count_mod (h : FullPeriod n f) {m v : Nat} (hv : v < m) :
    Nat.count (fun k => f k % m = v) n = n / m + if v < n % m then 1 else 0 := by
  have hmod : ∀ k, k % m = v ↔ k ≡ v [MOD m] := fun k => by
    rw [Nat.ModEq, Nat.mod_eq_of_lt hv]
  rw [h.count_comp (fun k => k % m = v)]
  simp only [hmod]
  rw [Nat.count_modEq_card n (Nat.zero_lt_of_lt hv), Nat.mod_eq_of_lt hv]

end FullPeriod

end Echofront.Lib
