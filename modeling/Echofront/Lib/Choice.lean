import Mathlib.Data.List.Nodup
import Mathlib.Tactic.Common

/-!
# Choice functions and the orders behind them

A choice function picks one member of every list.  `IsChoice` says that it does not
depend on irrelevant alternatives: what it picks from a list, it picks from every sublist
that still has it.  Such a choice comes from one order on all members.

* `picks` takes the members of a list in the order in which the choice picks them, each
  from what is left.
* `IsChoice.picks_sublist` is the law: the picks from a sublist are the picks from the
  whole list that are in it, in the same order.
-/

namespace Echofront.Lib

variable {α : Type*} [DecidableEq α]

/-- The members of a list in the order in which `c` picks them from what is left. -/
def picks (c : List α → Option α) : Nat → List α → List α
  | 0, _ => []
  | n + 1, xs =>
    match c xs with
    | none => []
    | some x => x :: picks c n (xs.filter (· ≠ x))

/-- A choice from the sublists of `xs` that does not depend on irrelevant
alternatives. -/
structure IsChoice (c : List α → Option α) (xs : List α) : Prop where
  nil : c [] = none
  mem : ∀ {ys}, ys.Sublist xs → ys ≠ [] → ∃ x ∈ ys, c ys = some x
  keep : ∀ {ys zs x}, zs.Sublist xs → ys.Sublist zs → c zs = some x → x ∈ ys → c ys = some x

variable {c : List α → Option α} {xs ys : List α} {n m : Nat}

theorem picks_nil (h : c [] = none) (n : Nat) : picks c n [] = [] := by
  cases n with
  | zero => rfl
  | succ n => simp only [picks, h]

theorem picks_of_some {x : α} (h : c xs = some x) :
    picks c (n + 1) xs = x :: picks c n (xs.filter (· ≠ x)) := by
  simp only [picks, h]

/-- Choices that agree on the sublists of a list pick the same from it. -/
theorem picks_congr {c' : List α → Option α} (h : ∀ ys, ys.Sublist xs → c ys = c' ys) (n : Nat) :
    picks c n xs = picks c' n xs := by
  induction n generalizing xs with
  | zero => rfl
  | succ n ih =>
    rw [picks, picks, h xs (List.Sublist.refl xs)]
    cases c' xs with
    | none => rfl
    | some x =>
      exact congrArg (x :: ·) (ih (fun ys hs => h ys (hs.trans List.filter_sublist)))

theorem length_filter_ne_lt {x : α} (hx : x ∈ xs) :
    (xs.filter (· ≠ x)).length < xs.length :=
  List.length_filter_lt_length_iff_exists.mpr ⟨x, hx, by simp⟩

namespace IsChoice

omit [DecidableEq α] in
theorem of_sublist (h : IsChoice c xs) (hs : ys.Sublist xs) : IsChoice c ys where
  nil := h.nil
  mem := fun hz hne => h.mem (hz.trans hs) hne
  keep := fun hz hy hc hx => h.keep (hz.trans hs) hy hc hx

/-- The picks from a list are members of it. -/
theorem picks_subset (h : IsChoice c xs) (n : Nat) : picks c n xs ⊆ xs := by
  induction n generalizing xs with
  | zero => simp [picks]
  | succ n ih =>
    by_cases hne : xs = []
    · subst hne
      rw [picks_nil h.nil]
      exact List.Subset.refl _
    · obtain ⟨x, hx, hc⟩ := h.mem (List.Sublist.refl xs) hne
      rw [picks_of_some hc]
      refine List.cons_subset.mpr ⟨hx, ?_⟩
      exact List.Subset.trans (ih (h.of_sublist List.filter_sublist)) (List.filter_subset_self _)

/-- The picks from a sublist are the picks from the list that are in it, in the same
order.  By induction on the picks from the list: the first one is also the first pick
from the sublist, or it is not in it. -/
theorem picks_sublist (h : IsChoice c xs) (hs : ys.Sublist xs) (hm : xs.length ≤ m)
    (hn : ys.length ≤ n) : picks c n ys = (picks c m xs).filter (· ∈ ys) := by
  induction m generalizing xs ys n with
  | zero =>
    obtain rfl := List.length_eq_zero_iff.mp (Nat.le_zero.mp hm)
    obtain rfl := List.sublist_nil.mp hs
    rw [picks_nil h.nil, picks_nil h.nil]
    rfl
  | succ m ih =>
    by_cases hne : xs = []
    · subst hne
      obtain rfl := List.sublist_nil.mp hs
      rw [picks_nil h.nil, picks_nil h.nil]
      rfl
    · obtain ⟨x, hx, hc⟩ := h.mem (List.Sublist.refl xs) hne
      have hrest : IsChoice c (xs.filter (· ≠ x)) := h.of_sublist List.filter_sublist
      have hlen : (xs.filter (· ≠ x)).length ≤ m :=
        Nat.le_of_lt_succ (Nat.lt_of_lt_of_le (length_filter_ne_lt hx) hm)
      rw [picks_of_some hc]
      by_cases hxy : x ∈ ys
      · have hcy : c ys = some x := h.keep (List.Sublist.refl xs) hs hc hxy
        obtain ⟨n, rfl⟩ : ∃ k, n = k + 1 :=
          Nat.exists_eq_succ_of_ne_zero (by have := List.length_pos_of_mem hxy; omega)
        have hleny : (ys.filter (· ≠ x)).length ≤ n :=
          Nat.le_of_lt_succ (Nat.lt_of_lt_of_le (length_filter_ne_lt hxy) hn)
        rw [picks_of_some hcy, ih hrest (hs.filter _) hlen hleny,
          List.filter_cons_of_pos (by simpa using hxy)]
        -- a later pick from the list is not `x`, so it is left of the sublist as well
        refine congrArg (x :: ·) (List.filter_congr (fun y hy => ?_))
        have hyx : y ≠ x := by
          have hmem := hrest.picks_subset m hy
          simpa using (List.mem_filter.mp hmem).2
        simp [hyx]
      · have hsame : ys.filter (· ≠ x) = ys :=
          List.filter_eq_self.mpr (fun y hy => by
            have hyx : y ≠ x := fun he => hxy (he ▸ hy)
            simpa using hyx)
        have hsub : ys.Sublist (xs.filter (· ≠ x)) := hsame ▸ hs.filter _
        rw [List.filter_cons_of_neg (by simpa using hxy), ih hrest hsub hlen hn]

/-- Each member of the list is picked once. -/
theorem picks_perm (h : IsChoice c xs) (hnd : xs.Nodup) (hm : xs.length ≤ m) :
    (picks c m xs).Perm xs := by
  induction m generalizing xs with
  | zero =>
    obtain rfl := List.length_eq_zero_iff.mp (Nat.le_zero.mp hm)
    exact List.Perm.refl _
  | succ m ih =>
    by_cases hne : xs = []
    · subst hne
      rw [picks_nil h.nil]
    · obtain ⟨x, hx, hc⟩ := h.mem (List.Sublist.refl xs) hne
      have hlen : (xs.filter (· ≠ x)).length ≤ m :=
        Nat.le_of_lt_succ (Nat.lt_of_lt_of_le (length_filter_ne_lt hx) hm)
      have hrest := ih (h.of_sublist List.filter_sublist) (hnd.filter _) hlen
      have herase : xs.filter (· ≠ x) = xs.erase x := by
        rw [hnd.erase_eq_filter]
        exact List.filter_congr (fun y _ => by by_cases hy : y = x <;> simp [hy])
      rw [picks_of_some hc]
      rw [herase] at hrest ⊢
      exact (hrest.cons x).trans (List.perm_cons_erase hx).symm

end IsChoice

end Echofront.Lib
