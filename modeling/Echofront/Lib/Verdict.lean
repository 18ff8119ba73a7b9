import Mathlib.Data.List.DropRight
import Mathlib.Tactic.Common

/-!
# The verdict of a history of replies

A judge hears replies one after the other.  A run of equal replies that reaches the
limit of its reply gives that reply as the verdict, and a verdict stands until another
one is given.

`VerdictAt` reads a verdict off a history, `Settled` says what the latest verdict of the
history is, and the lemmas say what one more reply does to it.  A program that keeps a
counter compares it with `trailing`, the length of the run at the end of the history.
-/

namespace Echofront.Lib

variable {α : Type*} [DecidableEq α]

/-- How many replies at the end of the history are `v`. -/
def trailing (v : α) (rs : List α) : Nat := (rs.rtakeWhile (fun r => decide (r = v))).length

@[simp] theorem trailing_nil (v : α) : trailing v [] = 0 := rfl

theorem trailing_concat (v : α) (rs : List α) (r : α) :
    trailing v (rs ++ [r]) = if r = v then trailing v rs + 1 else 0 := by
  unfold trailing
  rw [List.rtakeWhile_concat]
  by_cases h : r = v <;> simp [h]

theorem trailing_le_length (v : α) (rs : List α) : trailing v rs ≤ rs.length :=
  (List.rtakeWhile_suffix _ _).length_le

/-- A history ends in `n` replies `v` when that many of the last ones are. -/
theorem replicate_suffix_iff {n : Nat} {v : α} {rs : List α} :
    List.replicate n v <:+ rs ↔ n ≤ trailing v rs := by
  induction rs using List.reverseRecOn generalizing n with
  | nil => simp
  | append_singleton rs r ih =>
    cases n with
    | zero => simp
    | succ n =>
      rw [trailing_concat, List.replicate_succ', List.suffix_concat_iff]
      split_ifs with hr
      · subst hr
        simp [ih]
      · have hne : ¬ v = r := fun h => hr h.symm
        simp [hne]

/-- At the moment after `k` replies a run of replies `v` has reached its limit. -/
def VerdictAt (limit : α → Nat) (rs : List α) (k : Nat) (v : α) : Prop :=
  k ≤ rs.length ∧ List.replicate (max 1 (limit v)) v <:+ rs.take k

/-- The verdict after `k` replies is the latest one of the history. -/
def LatestVerdict (limit : α → Nat) (rs : List α) (k : Nat) (v : α) : Prop :=
  VerdictAt limit rs k v ∧ ∀ k' v', k < k' → ¬ VerdictAt limit rs k' v'

/-- `h` is the latest verdict, or what was held at the start if there is none. -/
def Settled (limit : α → Nat) (start : α) (rs : List α) (h : α) : Prop :=
  (∃ k, LatestVerdict limit rs k h) ∨ (h = start ∧ ∀ k v, ¬ VerdictAt limit rs k v)

variable {limit : α → Nat} {start h r : α} {rs : List α}

/-! ## One more reply -/

theorem verdictAt_length_iff (v : α) :
    VerdictAt limit rs rs.length v ↔ max 1 (limit v) ≤ trailing v rs := by
  unfold VerdictAt
  rw [List.take_length, replicate_suffix_iff, and_iff_right (le_refl _)]

/-- The verdicts of the longer history are those of the history and one after the new
reply. -/
theorem verdictAt_concat_iff (r : α) (k : Nat) (v : α) :
    VerdictAt limit (rs ++ [r]) k v ↔ VerdictAt limit rs k v ∨
      (k = rs.length + 1 ∧ max 1 (limit v) ≤ trailing v (rs ++ [r])) := by
  rcases Nat.lt_or_ge rs.length k with hlt | hle
  · have hold : ¬ VerdictAt limit rs k v := fun h => Nat.not_le_of_lt hlt h.1
    rw [or_iff_right hold]
    constructor
    · intro h
      have hk : k = rs.length + 1 := by
        have := h.1
        rw [List.length_append, List.length_singleton] at this
        omega
      have hlen : k = (rs ++ [r]).length := by simpa using hk
      rw [hlen, verdictAt_length_iff] at h
      exact ⟨hk, h⟩
    · intro h
      have hlen : k = (rs ++ [r]).length := by simpa using h.1
      rw [hlen, verdictAt_length_iff]
      exact h.2
  · have hnew : ¬ (k = rs.length + 1 ∧ max 1 (limit v) ≤ trailing v (rs ++ [r])) :=
      fun h => by omega
    rw [or_iff_left hnew]
    unfold VerdictAt
    rw [List.take_append_of_le_length hle, List.length_append, List.length_singleton]
    exact and_congr_left' ⟨fun _ => hle, fun _ => by omega⟩

/-- A verdict of the moment after a reply is that reply. -/
theorem eq_of_le_trailing {v : α} (h : max 1 (limit v) ≤ trailing v (rs ++ [r])) : r = v := by
  rw [trailing_concat] at h
  split_ifs at h with hr
  · exact hr
  · omega

theorem settled_nil (limit : α → Nat) (start : α) : Settled limit start [] start := by
  refine Or.inr ⟨rfl, fun k v h => ?_⟩
  have hk : k = ([] : List α).length := Nat.le_zero.mp h.1
  rw [hk, verdictAt_length_iff, trailing_nil] at h
  omega

/-- A run that reaches its limit settles the history. -/
theorem settled_concat_of_le (start : α) (h : max 1 (limit r) ≤ trailing r (rs ++ [r])) :
    Settled limit start (rs ++ [r]) r := by
  refine Or.inl ⟨rs.length + 1, (verdictAt_concat_iff r _ r).mpr (Or.inr ⟨rfl, h⟩), ?_⟩
  intro k v hk hv
  have hle := hv.1
  rw [List.length_append, List.length_singleton] at hle
  omega

/-- A reply whose run has not reached its limit leaves the verdict. -/
theorem Settled.concat_of_lt (hs : Settled limit start rs h)
    (hlt : trailing r (rs ++ [r]) < max 1 (limit r)) : Settled limit start (rs ++ [r]) h := by
  have hsame : ∀ k v, VerdictAt limit (rs ++ [r]) k v ↔ VerdictAt limit rs k v := by
    intro k v
    rw [verdictAt_concat_iff, or_iff_left_iff_imp]
    rintro ⟨_, hle⟩
    obtain rfl := eq_of_le_trailing hle
    exact absurd hle (Nat.not_le_of_lt hlt)
  rcases hs with ⟨k, hk, hlast⟩ | ⟨rfl, hnone⟩
  · exact Or.inl ⟨k, (hsame k h).mpr hk,
      fun k' v' hlt' hv' => hlast k' v' hlt' ((hsame k' v').mp hv')⟩
  · exact Or.inr ⟨rfl, fun k v hv => hnone k v ((hsame k v).mp hv)⟩

/-- A reply that agrees with the verdict leaves it. -/
theorem Settled.concat_self (hs : Settled limit start rs r) :
    Settled limit start (rs ++ [r]) r := by
  rcases Nat.lt_or_ge (trailing r (rs ++ [r])) (max 1 (limit r)) with hlt | hle
  · exact hs.concat_of_lt hlt
  · exact settled_concat_of_le start hle

/-- The run at the end of a history is one of one reply. -/
theorem VerdictAt.unique {k : Nat} {v w : α} (hv : VerdictAt limit rs k v)
    (hw : VerdictAt limit rs k w) : v = w := by
  have hone : ∀ {u : α}, VerdictAt limit rs k u → List.replicate 1 u <:+ rs.take k := by
    intro u hu
    have hle := replicate_suffix_iff.mp hu.2
    exact replicate_suffix_iff.mpr (le_trans (Nat.le_max_left _ _) hle)
  have hlen := (List.suffix_of_suffix_length_le (hone hv) (hone hw) (by simp)).eq_of_length
    (by simp)
  simpa using hlen

/-- A history settles on one reply only. -/
theorem Settled.unique {g : α} (hh : Settled limit start rs h)
    (hg : Settled limit start rs g) : h = g := by
  rcases hh with ⟨k, hk, hlast⟩ | ⟨rfl, hnone⟩
  · rcases hg with ⟨k', hk', hlast'⟩ | ⟨_, hnone'⟩
    · rcases Nat.lt_trichotomy k k' with hlt | rfl | hlt
      · exact absurd hk' (hlast k' g hlt)
      · exact hk.unique hk'
      · exact absurd hk (hlast' k h hlt)
    · exact absurd hk (hnone' k h)
  · rcases hg with ⟨k', hk', _⟩ | ⟨rfl, _⟩
    · exact absurd hk' (hnone k' g)
    · rfl

end Echofront.Lib
