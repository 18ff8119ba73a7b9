import Echofront.Lib.Run
import Echofront.Lib.Verdict

/-!
# Counters that wrap

A program counts in a word of `m` values.  An action raises the counter by one, sets it
back to zero or leaves it, and a raise of the greatest value wraps.

* `Counter` is such a counter of a system, with its step law as a field.
* `tally` reads off a run what the counter stands for: the raises since the last reset.
  `value_exec` says that the counter is the tally, modulo `m`.
* `always_fits_iff`: no raise of a run wraps exactly if no tally of it reaches `m`.
-/

namespace Echofront.Lib

variable {σ α : Type*} {M : System σ α} {m : Nat}

/-- A counter of a system.  `tick` is `true` where an action raises it, and `false` where
it sets it back. -/
structure Counter (M : System σ α) (m : Nat) where
  value : σ → Nat
  tick : σ → α → Option Bool
  value_step : ∀ s a, M.ok s a → value (M.step s a) =
    match tick s a with
    | none => value s
    | some true => (value s + 1) % m
    | some false => 0

namespace Counter

/-- The raises of a run since the last reset. -/
def tally (C : Counter M m) (s : σ) (as : List α) : Nat := trailing true (M.events C.tick s as)

/-- A raise does not wrap. -/
def Fits (C : Counter M m) (s : σ) (a : α) : Prop := C.tick s a = some true → C.value s + 1 < m

variable (C : Counter M m) {s : σ} {as : List α}

theorem tally_concat (s : σ) (as : List α) (a : α) :
    C.tally s (as ++ [a]) =
      match C.tick (M.exec s as) a with
      | none => C.tally s as
      | some true => C.tally s as + 1
      | some false => 0 := by
  rw [tally, System.events_concat]
  cases htick : C.tick (M.exec s as) a with
  | none => simp [tally]
  | some up => cases up <;> simp [tally, trailing_concat]

theorem tally_le_length (s : σ) (as : List α) : C.tally s as ≤ as.length := by
  induction as using List.reverseRecOn with
  | nil => exact Nat.le_refl 0
  | append_singleton as a ih =>
    rw [tally_concat, List.length_append, List.length_singleton]
    cases C.tick (M.exec s as) a with
    | none => exact Nat.le_add_right_of_le ih
    | some up =>
      cases up with
      | true => exact Nat.succ_le_succ ih
      | false => exact Nat.zero_le _

/-- The counter is its tally, modulo the number of its values. -/
theorem value_exec (h₀ : C.value s = 0) (hv : M.Valid s as) :
    C.value (M.exec s as) = C.tally s as % m := by
  refine System.Always.history (M := M) (I := fun as t => C.value t = C.tally s as % m) ?_ ?_ hv
  · rw [h₀]
    exact (Nat.zero_mod m).symm
  · intro as a _ ha ih
    rw [C.value_step _ a ha, C.tally_concat]
    cases htick : C.tick (M.exec s as) a with
    | none => exact ih
    | some up =>
      cases up with
      | true => simp only [ih, Nat.mod_add_mod]
      | false => exact (Nat.zero_mod m).symm

/-- No raise wraps exactly if no tally reaches the number of values. -/
theorem always_fits_iff (hm : 0 < m) (h₀ : C.value s = 0) (hv : M.Valid s as) :
    M.Always C.Fits s as ↔ ∀ pre, pre <+: as → C.tally s pre < m := by
  induction as using List.reverseRecOn with
  | nil =>
    refine ⟨fun _ pre hpre => ?_, fun _ => trivial⟩
    rw [List.prefix_nil.mp hpre]
    exact hm
  | append_singleton as a ih =>
    have hvalue := C.value_exec h₀ hv.left
    -- the last action raises the tally by one, or the tally is small
    have hstep : C.tally s as < m →
        (C.Fits (M.exec s as) a ↔ C.tally s (as ++ [a]) < m) := by
      intro hlt
      rw [Nat.mod_eq_of_lt hlt] at hvalue
      rw [C.tally_concat, Fits, hvalue]
      cases C.tick (M.exec s as) a with
      | none => simp [hlt]
      | some up => cases up <;> simp [hm]
    rw [System.always_concat_iff, ih hv.left]
    simp only [List.prefix_concat_iff, forall_eq_or_imp]
    constructor
    · intro h
      exact ⟨(hstep (h.1 as (List.prefix_refl as))).mp h.2, h.1⟩
    · intro h
      exact ⟨h.2, (hstep (h.2 as (List.prefix_refl as))).mpr h.1⟩

end Counter

end Echofront.Lib
