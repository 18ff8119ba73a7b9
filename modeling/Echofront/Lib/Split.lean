import Mathlib.Data.List.Basic

/-!
# Cutting lists

A list can be cut at the first occurrence of a pattern (`splitOnce`), at every
occurrence of a separator (`List.splitOn`, its lines), and at the first line that a
predicate accepts.  This module relates the three.

* `splitOnce_eq_some` and `splitOnce_eq_none_iff` say all there is to say of
  `splitOnce`: it cuts at an occurrence, and at no later one than the first.
* `splitOn_append_line` and `splitOn_append_of_not_mem` are what an occurrence of a
  pattern with separators means for the lines.
* `intercalate_append_cons` is the way back, from lines to the list.
* `append_cons_first` compares a cut at a line that `p` accepts with the cut at the
  first such line.
-/

namespace Echofront.Lib

variable {α : Type*}

/-! ## The first occurrence of a pattern -/

section SplitOnce

variable [DecidableEq α]

/-- The parts of a list before and after the first occurrence of `pat`. -/
def splitOnce (pat : List α) : List α → Option (List α × List α)
  | [] => if pat = [] then some ([], []) else none
  | x :: xs =>
    if pat <+: x :: xs then some ([], (x :: xs).drop pat.length)
    else (splitOnce pat xs).map (fun r => (x :: r.1, r.2))

/-- A cut is at an occurrence, and no occurrence begins before it. -/
theorem splitOnce_eq_some {pat xs a b : List α} (h : splitOnce pat xs = some (a, b)) :
    xs = a ++ pat ++ b ∧ ∀ a' b', xs = a' ++ pat ++ b' → a.length ≤ a'.length := by
  induction xs generalizing a with
  | nil =>
    by_cases hpat : pat = []
    · obtain ⟨rfl, rfl⟩ : [] = a ∧ [] = b := by simpa [splitOnce, hpat] using h
      exact ⟨by simp [hpat], fun _ _ _ => Nat.zero_le _⟩
    · simp [splitOnce, hpat] at h
  | cons x xs ih =>
    by_cases hpre : pat <+: x :: xs
    · obtain ⟨rfl, rfl⟩ : [] = a ∧ (x :: xs).drop pat.length = b := by
        simpa [splitOnce, hpre] using h
      exact ⟨(List.prefix_iff_eq_append.mp hpre).symm, fun _ _ _ => Nat.zero_le _⟩
    · simp only [splitOnce, hpre, if_false, Option.map_eq_some_iff, Prod.mk.injEq] at h
      obtain ⟨r, hr, rfl, rfl⟩ := h
      obtain ⟨heq, hfirst⟩ := ih hr
      refine ⟨by rw [heq]; rfl, fun a' b' he => ?_⟩
      cases a' with
      | nil => exact absurd ⟨b', he.symm⟩ hpre
      | cons y ys =>
        obtain ⟨rfl, htail⟩ := List.cons.inj he
        exact Nat.succ_le_succ (hfirst ys b' htail)

theorem splitOnce_eq_none_iff {pat xs : List α} :
    splitOnce pat xs = none ↔ ¬ pat <:+: xs := by
  induction xs with
  | nil => by_cases hpat : pat = [] <;> simp [splitOnce, hpat]
  | cons x xs ih =>
    rw [List.infix_cons_iff, not_or, ← ih]
    by_cases hpre : pat <+: x :: xs <;> simp [splitOnce, hpre]

/-- A single element is found where it first occurs. -/
theorem splitOnce_singleton {x : α} {xs : List α} (h : x ∉ xs) (ys : List α) :
    splitOnce [x] (xs ++ x :: ys) = some (xs, ys) := by
  induction xs with
  | nil => simp [splitOnce]
  | cons y xs ih =>
    have hne : x ≠ y ∧ x ∉ xs := by simpa [not_or] using h
    simp [splitOnce, hne.1, ih hne.2]

/-- A cut at a single element is the first one. -/
theorem splitOnce_singleton_eq_some {x : α} {xs a b : List α}
    (h : splitOnce [x] xs = some (a, b)) : xs = a ++ x :: b ∧ x ∉ a := by
  obtain ⟨heq, hfirst⟩ := splitOnce_eq_some h
  refine ⟨by rw [heq]; simp, fun hmem => ?_⟩
  obtain ⟨a₁, a₂, rfl⟩ := List.append_of_mem hmem
  have hle := hfirst a₁ (a₂ ++ [x] ++ b) (by rw [heq]; simp)
  rw [List.length_append, List.length_cons] at hle
  omega

theorem splitOnce_singleton_eq_none_iff {x : α} {xs : List α} :
    splitOnce [x] xs = none ↔ x ∉ xs := by
  constructor
  · intro h hmem
    obtain ⟨as, bs, rfl⟩ := List.append_of_mem hmem
    exact splitOnce_eq_none_iff.mp h ⟨as, bs, by simp⟩
  · intro h
    refine splitOnce_eq_none_iff.mpr (fun hinfix => h ?_)
    exact hinfix.subset List.mem_cons_self

end SplitOnce

/-! ## Lines -/

section Lines

variable {s : α}

/-- No line contains a separator. -/
theorem not_of_mem_splitOnP {p : α → Bool} {xs l : List α} (h : l ∈ xs.splitOnP p) :
    ∀ x ∈ l, p x = false := by
  induction xs generalizing l with
  | nil =>
    obtain rfl : l = [] := by simpa using h
    simp
  | cons x xs ih =>
    rw [List.splitOnP_cons_eq_if_modifyHead] at h
    cases hx : p x with
    | true =>
      rcases (by simpa [hx] using h : l = [] ∨ l ∈ xs.splitOnP p) with rfl | h
      · simp
      · exact ih h
    | false =>
      obtain ⟨m, ms, heq⟩ := List.exists_cons_of_ne_nil (List.splitOnP_ne_nil p xs)
      rcases (by simpa [hx, heq] using h : l = x :: m ∨ l ∈ ms) with rfl | h
      · exact List.forall_mem_cons.mpr ⟨hx, ih (heq ▸ List.mem_cons_self)⟩
      · exact ih (heq ▸ List.mem_cons_of_mem _ h)

theorem not_mem_of_mem_splitOn [BEq α] [LawfulBEq α] {xs l : List α} (h : l ∈ xs.splitOn s) :
    s ∉ l := by
  intro hmem
  rw [List.splitOn_eq_splitOnP] at h
  exact absurd (not_of_mem_splitOnP h s hmem) (by simp)

/-- The line between two separators. -/
theorem splitOn_append_line [BEq α] [LawfulBEq α] {z : List α} (h : s ∉ z) (a b : List α) :
    (a ++ s :: (z ++ s :: b)).splitOn s = a.splitOn s ++ z :: b.splitOn s := by
  rw [List.splitOn_append_cons_self, List.splitOn_append_cons_self_of_not_mem h]

/-- What is appended without a separator goes to the last line. -/
theorem splitOn_append_of_not_mem [BEq α] [LawfulBEq α] {t : List α} (h : s ∉ t)
    (xs : List α) :
    ∃ ls l, xs.splitOn s = ls ++ [l] ∧ (xs ++ t).splitOn s = ls ++ [l ++ t] := by
  induction xs with
  | nil => exact ⟨[], [], rfl, List.splitOn_eq_singleton h⟩
  | cons x xs ih =>
    obtain ⟨ls, l, heq, happ⟩ := ih
    rw [List.cons_append, List.splitOn_cons_eq_if_modifyHead,
      List.splitOn_cons_eq_if_modifyHead, heq, happ]
    by_cases hx : x = s
    · exact ⟨[] :: ls, l, by simp [hx], by simp [hx]⟩
    · cases ls with
      | nil => exact ⟨[], x :: l, by simp [hx], by simp [hx]⟩
      | cons m ms => exact ⟨(x :: m) :: ms, l, by simp [hx], by simp [hx]⟩

theorem intercalate_append_cons {xs : List (List α)} (h : xs ≠ []) (z : List α)
    (ys : List (List α)) :
    [s].intercalate (xs ++ z :: ys) = [s].intercalate xs ++ s :: [s].intercalate (z :: ys) := by
  induction xs with
  | nil => exact absurd rfl h
  | cons x xs ih =>
    cases xs with
    | nil => simp
    | cons y xs =>
      have hne : y :: xs ≠ [] := List.cons_ne_nil _ _
      have happ : y :: xs ++ z :: ys ≠ [] := by simp
      rw [List.cons_append, List.intercalate_cons_of_ne_nil happ, ih hne,
        List.intercalate_cons_of_ne_nil hne]
      simp

end Lines

/-- Two cuts of one list of lines.  The first one is at the first line after `x` that
`p` accepts, the second one at some line after `x` that `p` accepts.  They agree, or
the second one is later. -/
theorem append_cons_first {p : α → Bool} {x z z' : α} {xs ys as bs : List α}
    (hxs : ∀ y ∈ xs, p y = false) (has : as ≠ []) (hz' : p z' = true)
    (h : x :: xs ++ z :: ys = as ++ z' :: bs) :
    (as = x :: xs ∧ z' = z ∧ bs = ys) ∨
      ∃ ms, as = x :: xs ++ z :: ms ∧ ys = ms ++ z' :: bs := by
  rcases List.append_eq_append_iff.mp h with ⟨ms, has', hrest⟩ | ⟨ms, hxs', hrest⟩
  · cases ms with
    | nil =>
      obtain ⟨rfl, rfl⟩ := List.cons.inj hrest
      exact Or.inl ⟨by simpa using has', rfl, rfl⟩
    | cons m ms =>
      obtain ⟨rfl, rfl⟩ := List.cons.inj hrest
      exact Or.inr ⟨ms, has', rfl⟩
  · cases ms with
    | nil =>
      obtain ⟨rfl, rfl⟩ := List.cons.inj hrest
      exact Or.inl ⟨by simpa using hxs'.symm, rfl, rfl⟩
    | cons m ms =>
      -- the line that the second cut is at would come before the first cut
      obtain ⟨rfl, _⟩ := List.cons.inj hrest
      obtain ⟨y, as, rfl⟩ := List.exists_cons_of_ne_nil has
      obtain ⟨_, rfl⟩ := List.cons.inj hxs'
      rw [hxs z' (by simp)] at hz'
      exact absurd hz' (by decide)

end Echofront.Lib
