import Mathlib.Data.List.Perm.Subperm
import Mathlib.Data.List.Rotate
import Mathlib.Data.Nat.ModEq

/-!
# Picks in a cycle

Entries of a list that are picked one after the other, from any position on, and again
from its head after its end.  `Cyclic l c xs` says that `xs` are such picks.

* `Cyclic.window` and `Cyclic.period`: as many consecutive picks as the list has
  entries are a permutation of it, and after them the picks repeat.
* `Cyclic.count`: no two entries differ by more than one in how often they are picked.
* `perm_getElem?_iff` is about picks at any positions: they are a permutation of the
  list exactly when the positions differ.
-/

namespace Echofront.Lib

variable {α : Type*}

/-- As many entries of a list as it has, read at the positions `is`, are a
permutation of it exactly when the positions differ. -/
theorem perm_getElem?_iff {l : List α} (hl : l.Nodup) {is : List Nat}
    (hlt : ∀ i ∈ is, i < l.length) (hlen : is.length = l.length) :
    (is.map (fun i => l[i]?)).Perm (l.map some) ↔ is.Nodup := by
  constructor
  · intro hperm
    have hnodup : (l.map some).Nodup := hl.map (Option.some_injective α)
    exact (hperm.nodup_iff.mpr hnodup).of_map _
  · intro hnodup
    have hsub : is ⊆ List.range l.length := fun i hi => List.mem_range.mpr (hlt i hi)
    have hrange : is.Perm (List.range l.length) :=
      (List.subperm_of_subset hnodup hsub).perm_of_length_le (by simp [hlen])
    have hall : (List.range l.length).map (fun i => l[i]?) = l.map some := by
      apply List.ext_getElem?
      intro i
      rcases Nat.lt_or_ge i l.length with hi | hi
      · simp [hi]
      · simp [hi]
    exact hall ▸ hrange.map _

/-- The positions of a cycle from `c` on differ. -/
theorem nodup_cycle (c n : Nat) : ((List.range n).map (fun j => (c + j) % n)).Nodup := by
  refine List.Nodup.map_on (fun i hi j hj heq => ?_) List.nodup_range
  rw [List.mem_range] at hi hj
  have hmod : i % n = j % n := Nat.ModEq.add_left_cancel' c heq
  rwa [Nat.mod_eq_of_lt hi, Nat.mod_eq_of_lt hj] at hmod

/-! ## Consecutive picks -/

/-- The picks `xs` are the entries of `l` in a cycle from position `c` on. -/
def Cyclic (l : List α) (c : Nat) (xs : List α) : Prop :=
  ∀ j < xs.length, xs[j]? = l[(c + j) % l.length]?

variable {l xs : List α} {c : Nat}

theorem cyclic_nil (l : List α) (c : Nat) : Cyclic l c [] :=
  fun j hj => absurd hj (Nat.not_lt_zero j)

/-- One more pick at the front. -/
theorem Cyclic.cons (h : Cyclic l (c + 1) xs) {x : α} (hx : l[c % l.length]? = some x) :
    Cyclic l c (x :: xs) := by
  intro j hj
  cases j with
  | zero => exact hx.symm
  | succ j =>
    rw [List.getElem?_cons_succ, h j (Nat.lt_of_succ_lt_succ hj), Nat.add_assoc,
      Nat.add_comm 1 j]

/-- The picks after the first `k`. -/
theorem Cyclic.drop (h : Cyclic l c xs) (k : Nat) : Cyclic l (c + k) (xs.drop k) := by
  intro j hj
  rw [List.length_drop] at hj
  rw [List.getElem?_drop, h (k + j) (by omega), Nat.add_assoc]

/-- Up to as many picks as the list has entries are a part of a rotation of it. -/
theorem Cyclic.take_eq (h : Cyclic l c xs) {m : Nat} (hm : m ≤ xs.length)
    (hl : m ≤ l.length) : xs.take m = (l.rotate c).take m := by
  apply List.ext_getElem?
  intro j
  rcases Nat.lt_or_ge j m with hj | hj
  · rw [List.getElem?_take_of_lt hj, List.getElem?_take_of_lt hj, h j (by omega),
      List.getElem?_rotate (by omega), Nat.add_comm]
  · rw [List.getElem?_take_eq_none hj, List.getElem?_take_eq_none hj]

/-- As many consecutive picks as the list has entries are a permutation of it. -/
theorem Cyclic.window (h : Cyclic l c xs) {k : Nat} (hk : k + l.length ≤ xs.length) :
    ((xs.drop k).take l.length).Perm l := by
  rw [(h.drop k).take_eq (by rw [List.length_drop]; omega) (Nat.le_refl _),
    List.take_of_length_le (by rw [List.length_rotate])]
  exact List.rotate_perm l (c + k)

/-- The picks repeat after as many as the list has entries. -/
theorem Cyclic.period (h : Cyclic l c xs) {j : Nat} (hj : j + l.length < xs.length) :
    xs[j + l.length]? = xs[j]? := by
  rw [h _ hj, h j (by omega), ← Nat.add_assoc, Nat.add_mod_right]

/-- Every entry is picked as often as any other, up to one. -/
theorem Cyclic.count [DecidableEq α] (h : Cyclic l c xs) (hl : l.Nodup) {a : α}
    (ha : a ∈ l) :
    xs.count a = xs.length / l.length ∨
      xs.count a = (xs.length + l.length - 1) / l.length := by
  have hpos : 0 < l.length := List.length_pos_of_mem ha
  induction hm : xs.length using Nat.strong_induction_on generalizing xs c with
  | _ m ih =>
    subst hm
    rcases Nat.lt_or_ge xs.length l.length with hlt | hge
    · -- less than one round
      have hpart : xs = (l.rotate c).take xs.length := by
        rw [← h.take_eq (Nat.le_refl _) hlt.le, List.take_length]
      have hone : xs.count a ≤ 1 := by
        rw [hpart]
        refine ((List.take_sublist _ _).count_le a).trans ?_
        rw [(List.rotate_perm l c).count_eq, List.count_eq_one_of_mem hl ha]
      rw [Nat.div_eq_of_lt hlt]
      rcases Nat.eq_zero_or_pos xs.length with hzero | hsome
      · rw [List.length_eq_zero_iff.mp hzero]
        exact Or.inl List.count_nil
      · have hceil : (xs.length + l.length - 1) / l.length = 1 :=
          Nat.div_eq_of_lt_le (by omega) (by omega)
        omega
    · -- one round and the rest
      obtain ⟨k, hk⟩ := Nat.exists_eq_add_of_le' hge
      have hround : (xs.take l.length).count a = 1 := by
        have hperm := h.window (k := 0) (by omega)
        rw [List.drop_zero] at hperm
        rw [hperm.count_eq, List.count_eq_one_of_mem hl ha]
      have hsplit : xs.count a = 1 + (xs.drop l.length).count a := by
        rw [← hround, ← List.count_append, List.take_append_drop]
      have hlen : (xs.drop l.length).length = k := by
        rw [List.length_drop]
        omega
      have hrest := ih k (by omega) (h.drop l.length) hlen
      have hfloor : (k + l.length) / l.length = k / l.length + 1 := Nat.add_div_right k hpos
      have hceil : (k + l.length + l.length - 1) / l.length =
          (k + l.length - 1) / l.length + 1 := by
        rw [← Nat.add_div_right _ hpos]
        congr 1
        omega
      rw [hsplit, hk, hfloor, hceil]
      omega

end Echofront.Lib
