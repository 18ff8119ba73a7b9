import Mathlib.Data.List.Basic
import Mathlib.Order.Lattice
import Mathlib.Tactic.Common

/-!
# Picking an entry of a list in one pass

A scan keeps one entry of a list and replaces it by a later entry when a relation
`R` says so.  With `R a b` for `key a ≤ key b` it ends with the last of the greatest
entries, and with `R a b` for `key b < key a` with the first of the least.

`Picked R xs w` says where in the list the entry of the scan stands: it replaces
every entry before it, and no entry after it replaces it.  `picked_foldl` is the
induction over the list, and `Picked.unique` says that the position is one only.

Over an ascending list the scan for the least key ends with `LeastOf`.  Whoever adds
one to the key of that entry again and again keeps the keys `Level`.
-/

namespace Echofront.Lib

variable {α : Type*} {R : α → α → Prop}

/-- One turn of the scan. -/
def keep (R : α → α → Prop) [DecidableRel R] (best x : α) : α :=
  if R best x then x else best

/-- What one pass needs of the relation. -/
structure Replaces (R : α → α → Prop) : Prop where
  trans : ∀ {a b c : α}, R a b → R b c → R a c
  /-- What replaces the entry so far replaces also what did not replace it. -/
  of_not : ∀ {a b c : α}, ¬ R a b → R a c → R b c

/-- The entry `w` replaces every entry before it, and none after it replaces `w`. -/
def Picked (R : α → α → Prop) (xs : List α) (w : α) : Prop :=
  ∃ pre post, xs = pre ++ w :: post ∧ (∀ x ∈ pre, R x w) ∧ ∀ x ∈ post, ¬ R w x

theorem Picked.mem {xs : List α} {w : α} (h : Picked R xs w) : w ∈ xs := by
  obtain ⟨pre, post, rfl, _, _⟩ := h
  simp

theorem picked_singleton (a : α) : Picked R [a] a := ⟨[], [], rfl, by simp, by simp⟩

/-- A turn of the scan at the end of the list. -/
theorem Picked.concat [DecidableRel R] (hR : Replaces R) {xs : List α} {w : α}
    (h : Picked R xs w) (x : α) : Picked R (xs ++ [x]) (keep R w x) := by
  obtain ⟨pre, post, rfl, hpre, hpost⟩ := h
  rw [keep]
  split_ifs with hx
  · refine ⟨pre ++ w :: post, [], rfl, fun y hy => ?_, by simp⟩
    rcases List.mem_append.mp hy with hy | hy
    · exact hR.trans (hpre y hy) hx
    · rcases List.mem_cons.mp hy with rfl | hy
      · exact hx
      · exact hR.of_not (hpost y hy) hx
  · refine ⟨pre, post ++ [x], by simp, hpre, fun y hy => ?_⟩
    rcases List.mem_append.mp hy with hy | hy
    · exact hpost y hy
    · rw [List.mem_singleton.mp hy]
      exact hx

/-- What the scan of a list ends with. -/
theorem picked_foldl [DecidableRel R] (hR : Replaces R) (a : α) (xs : List α) :
    Picked R (a :: xs) (xs.foldl (keep R) a) := by
  have hrun : ∀ (xs seen : List α) (w : α), Picked R seen w →
      Picked R (seen ++ xs) (xs.foldl (keep R) w) := by
    intro xs
    induction xs with
    | nil =>
      intro seen w h
      simpa using h
    | cons x xs ih =>
      intro seen w h
      have hstep := ih (seen ++ [x]) (keep R w x) (h.concat hR x)
      rwa [List.append_assoc] at hstep
  exact hrun xs [a] a (picked_singleton a)

/-- A list has one picked entry only. -/
theorem Picked.unique {xs : List α} {v w : α} (hv : Picked R xs v) (hw : Picked R xs w) :
    v = w := by
  obtain ⟨pre, post, rfl, hpre, hpost⟩ := hv
  obtain ⟨pre', post', heq, hpre', hpost'⟩ := hw
  rcases List.append_eq_append_iff.mp heq with ⟨c, rfl, hc⟩ | ⟨c, rfl, hc⟩
  · cases c with
    | nil => exact (List.cons.inj hc).1
    | cons x c =>
      -- `v` stands before `w`
      obtain ⟨rfl, rfl⟩ := List.cons.inj hc
      exact absurd (hpre' v (by simp)) (hpost w (by simp))
  · cases c with
    | nil => exact (List.cons.inj hc).1.symm
    | cons x c =>
      obtain ⟨rfl, rfl⟩ := List.cons.inj hc
      exact absurd (hpre w (by simp)) (hpost' v (by simp))

/-- An entry that does not replace the picked one may join the list anywhere. -/
theorem Picked.insert {pre post : List α} {w x : α} (h : Picked R (pre ++ post) w)
    (hafter : ¬ R w x) (hbefore : R x w) : Picked R (pre ++ x :: post) w := by
  obtain ⟨a, b, heq, ha, hb⟩ := h
  rcases List.append_eq_append_iff.mp heq with ⟨c, rfl, rfl⟩ | ⟨c, rfl, hc⟩
  · refine ⟨pre ++ x :: c, b, by simp, fun y hy => ?_, hb⟩
    rcases List.mem_append.mp hy with hy | hy
    · exact ha y (List.mem_append_left _ hy)
    · rcases List.mem_cons.mp hy with rfl | hy
      · exact hbefore
      · exact ha y (List.mem_append_right _ hy)
  · cases c with
    | nil =>
      obtain rfl : post = w :: b := hc.symm
      refine ⟨a ++ [x], b, by simp, fun y hy => ?_, hb⟩
      rcases List.mem_append.mp hy with hy | hy
      · exact ha y hy
      · rw [List.mem_singleton.mp hy]
        exact hbefore
    | cons y c =>
      obtain ⟨rfl, rfl⟩ := List.cons.inj hc
      refine ⟨a, c ++ x :: post, by simp, ha, fun y hy => ?_⟩
      rcases List.mem_append.mp hy with hy | hy
      · exact hb y (List.mem_append_left _ hy)
      · rcases List.mem_cons.mp hy with rfl | hy
        · exact hafter
        · exact hb y (List.mem_append_right _ hy)

/-! ## The least of an ascending list -/

section Least

variable {β : Type*} [LinearOrder α] [LinearOrder β]

/-- The entry `w` has the least key, and it is the least entry with that key. -/
def LeastOf (key : α → β) (xs : List α) (w : α) : Prop :=
  w ∈ xs ∧ ∀ x ∈ xs, key w < key x ∨ key w = key x ∧ w ≤ x

omit [LinearOrder α] in
theorem replaces_lt (key : α → β) : Replaces (fun best x => key x < key best) where
  trans := fun hab hbc => hbc.trans hab
  of_not := fun hab hac => hac.trans_le (not_lt.mp hab)

/-- The scan for a smaller key keeps the first of the least keys, and in an ascending
list that is the least entry. -/
theorem Picked.leastOf {key : α → β} {xs : List α} {w : α}
    (h : Picked (fun best x => key x < key best) xs w) (hlt : xs.Pairwise (· < ·)) :
    LeastOf key xs w := by
  refine ⟨h.mem, fun x hx => ?_⟩
  obtain ⟨pre, post, rfl, hpre, hpost⟩ := h
  rcases List.mem_append.mp hx with hx | hx
  · exact Or.inl (hpre x hx)
  · rcases List.mem_cons.mp hx with rfl | hx
    · exact Or.inr ⟨rfl, le_refl _⟩
    · have hafter : w < x := (List.pairwise_cons.mp (List.pairwise_append.mp hlt).2.1).1 x hx
      rcases (not_lt.mp (hpost x hx)).lt_or_eq with hkey | hkey
      · exact Or.inl hkey
      · exact Or.inr ⟨hkey, hafter.le⟩

theorem LeastOf.unique {key : α → β} {xs : List α} {v w : α} (hv : LeastOf key xs v)
    (hw : LeastOf key xs w) : v = w := by
  rcases hv.2 w hw.1 with hvw | ⟨hvw, hle⟩
  · rcases hw.2 v hv.1 with hwv | ⟨hwv, _⟩
    · exact absurd hwv hvw.asymm
    · exact absurd hwv hvw.ne'
  · rcases hw.2 v hv.1 with hwv | ⟨_, hge⟩
    · exact absurd hvw hwv.ne'
    · exact le_antisymm hle hge

/-- Counts of which no two differ by more than one. -/
def Level (count : α → Nat) (xs : List α) : Prop :=
  ∀ i ∈ xs, ∀ j ∈ xs, count i ≤ count j + 1

/-- One more for the least count keeps the counts level. -/
theorem Level.add_least {count count' : α → Nat} {xs : List α} {w : α}
    (h : Level count xs) (hw : LeastOf count xs w)
    (hcount : ∀ i, count' i = count i + if w = i then 1 else 0) : Level count' xs := by
  intro i hi j hj
  have hij := h i hi j hj
  rw [hcount i, hcount j]
  split_ifs with hwi hwj hwj
  · exact Nat.add_le_add_right hij 1
  · subst hwi
    rcases hw.2 j hj with hlt | ⟨heq, _⟩ <;> omega
  · omega
  · exact hij

end Least

end Echofront.Lib
