import Mathlib.Algebra.BigOperators.Group.Finset.Basic
import Mathlib.Algebra.BigOperators.Ring.Finset
import Mathlib.Algebra.Order.BigOperators.Group.Finset
import Mathlib.Algebra.GCDMonoid.Finset
import Mathlib.Tactic.Linarith
import Mathlib.Tactic.Ring

/-!
# Smooth weighted round robin

Members have a score and a credit.  In a round every active member gains its
score, the first member with the greatest credit leads, and the leader pays the
sum of the active scores.

There are two groups of results.

* Churn: the active set and the scores may change before every round.
  `Balanced` is the invariant.  It bounds the credit of every set of `k` members
  of `n` by `k * (n - k) * m`, where `m` bounds the sum of the active scores.
  `Balanced.round` is the step lemma; its one idea is that a set which would pass
  its bound has a member that the leader does not beat.
* Constant scores: `Rounds` is a run of rounds with one active set.
  `Rounds.credit_eq` is its closed form, `Rounds.centred` the lower bound on the
  credits, and `Rounds.cycle` says that the picks of a full period are exactly
  proportional.  A run is determined by its length, so after a period it repeats
  (`Rounds.getElem?_add`).
-/

namespace Echofront.Lib.SmoothWrr

open Finset

variable {ι : Type*}

/-- The sum of the active scores. -/
def total (A : Finset ι) (s : ι → ℤ) : ℤ := ∑ i ∈ A, s i

theorem total_natCast (A : Finset ι) (s : ι → ℕ) :
    total A (fun i => (s i : ℤ)) = ((∑ i ∈ A, s i : ℕ) : ℤ) := by
  rw [total]
  push_cast
  rfl

theorem total_natCast_pos {A : Finset ι} {s : ι → ℕ} (h : 0 < ∑ i ∈ A, s i) :
    0 < total A (fun i => (s i : ℤ)) := by
  rw [total_natCast]
  exact_mod_cast h

/-- The credits of the members sum to zero, and `k` of the `n` members have a
credit of at most `k * (n - k) * m`. -/
structure Balanced (U : Finset ι) (m : ℤ) (c : ι → ℤ) : Prop where
  zero : ∑ i ∈ U, c i = 0
  part : ∀ K ⊆ U, ∑ i ∈ K, c i ≤ K.card * (U.card - K.card) * m

theorem Balanced.of_zero {U : Finset ι} {m : ℤ} (hm : 0 ≤ m) {c : ι → ℤ}
    (hc : ∀ i, c i = 0) : Balanced U m c := by
  refine ⟨sum_eq_zero (fun i _ => hc i), fun K hK => ?_⟩
  rw [sum_eq_zero (fun i _ => hc i)]
  have hcard : (K.card : ℤ) ≤ U.card := by exact_mod_cast card_le_card hK
  exact mul_nonneg (mul_nonneg (by positivity) (by omega)) hm

/-- Credits that sum to zero over the active set, each above the negated
total. -/
structure Centred (A : Finset ι) (s c : ι → ℤ) : Prop where
  zero : ∑ i ∈ A, c i = 0
  lower : ∀ i ∈ A, -total A s < c i

theorem Centred.of_zero {A : Finset ι} {s c : ι → ℤ} (hpos : 0 < total A s)
    (hc : ∀ i ∈ A, c i = 0) : Centred A s c :=
  ⟨sum_eq_zero hc, fun i hi => by rw [hc i hi]; omega⟩

variable [LinearOrder ι]

/-! ## Rounds -/

/-- The credits after a round that `j` leads. -/
def turn (A : Finset ι) (s : ι → ℤ) (j : ι) (c : ι → ℤ) (i : ι) : ℤ :=
  c i + (if i ∈ A then s i else 0) - if i = j then total A s else 0

/-- `j` is the first active member with the greatest credit after the scores
have been added. -/
structure Leads (A : Finset ι) (s c : ι → ℤ) (j : ι) : Prop where
  mem : j ∈ A
  beats : ∀ i ∈ A, c i + s i < c j + s j ∨ (c i + s i = c j + s j ∧ j ≤ i)

theorem Leads.le {A : Finset ι} {s c : ι → ℤ} {j : ι} (h : Leads A s c j) {i : ι}
    (hi : i ∈ A) : c i + s i ≤ c j + s j := by
  rcases h.beats i hi with hlt | ⟨heq, _⟩
  · exact le_of_lt hlt
  · exact le_of_eq heq

/-- There is one leader. -/
theorem Leads.unique {A : Finset ι} {s c : ι → ℤ} {j k : ι} (hj : Leads A s c j)
    (hk : Leads A s c k) : j = k := by
  rcases hj.beats k hk.mem with hlt | ⟨_, hjk⟩
  · exact absurd (hk.le hj.mem) (not_le.mpr hlt)
  · rcases hk.beats j hj.mem with hlt | ⟨_, hkj⟩
    · exact absurd (hj.le hk.mem) (not_le.mpr hlt)
    · exact le_antisymm hjk hkj

/-- A round reads the scores of the active members only. -/
theorem Leads.congr {A : Finset ι} {s s' c : ι → ℤ} {j : ι} (h : Leads A s c j)
    (hs : ∀ i ∈ A, s i = s' i) : Leads A s' c j := by
  refine ⟨h.mem, fun i hi => ?_⟩
  rw [← hs i hi, ← hs j h.mem]
  exact h.beats i hi

theorem turn_congr {A : Finset ι} {s s' : ι → ℤ} (hs : ∀ i ∈ A, s i = s' i) (j : ι)
    (c : ι → ℤ) : turn A s j c = turn A s' j c := by
  funext i
  have htotal : total A s = total A s' := sum_congr rfl hs
  rw [turn, turn, htotal]
  by_cases hi : i ∈ A
  · rw [if_pos hi, if_pos hi, hs i hi]
  · rw [if_neg hi, if_neg hi]

/-- What a round adds to the credit of a set. -/
theorem sum_turn (A : Finset ι) (s : ι → ℤ) (j : ι) (c : ι → ℤ) (K : Finset ι) :
    ∑ i ∈ K, turn A s j c i =
      ∑ i ∈ K, c i + ∑ i ∈ K ∩ A, s i - if j ∈ K then total A s else 0 := by
  simp only [turn, sum_sub_distrib, sum_add_distrib, sum_ite_mem, sum_ite_eq']

/-! ## Churn -/

/-- Any choice of an active set and scores, with a sum of at most `m`, keeps the
balance. -/
theorem Balanced.round {U A : Finset ι} {m : ℤ} {s c : ι → ℤ} {j : ι}
    (h : Balanced U m c) (hA : A ⊆ U) (hs : ∀ i ∈ A, 0 ≤ s i) (hm : total A s ≤ m)
    (hj : Leads A s c j) : Balanced U m (turn A s j c) := by
  have hjU : j ∈ U := hA hj.mem
  refine ⟨?_, fun K hK => ?_⟩
  · rw [sum_turn, h.zero, inter_eq_right.mpr hA, if_pos hjU, total]
    ring
  have hgain : ∑ i ∈ K ∩ A, s i ≤ total A s :=
    sum_le_sum_of_subset_of_nonneg inter_subset_right (fun i hi _ => hs i hi)
  rw [sum_turn]
  by_cases hjK : j ∈ K
  · -- The leader pays for all that the set gains.
    have hle := h.part K hK
    rw [if_pos hjK]
    omega
  · rw [if_neg hjK, sub_zero]
    rcases (K ∩ A).eq_empty_or_nonempty with hempty | ⟨i, hi⟩
    · rw [hempty, sum_empty, add_zero]
      exact h.part K hK
    · obtain ⟨hiK, hiA⟩ := mem_inter.mp hi
      -- The set without `i`, and the set with the leader.
      have hless := h.part (K.erase i) ((erase_subset i K).trans hK)
      have hmore := h.part (insert j K) (insert_subset hjU hK)
      have hcless : ((K.erase i).card : ℤ) = K.card - 1 := by
        have hadd : (K.erase i).card + 1 = K.card := card_erase_add_one hiK
        omega
      have hcmore : ((insert j K).card : ℤ) = K.card + 1 := by
        rw [card_insert_of_notMem hjK]
        push_cast
        rfl
      rw [hcless] at hless
      rw [hcmore, sum_insert hjK] at hmore
      have hsplit : ∑ k ∈ K.erase i, c k + c i = ∑ k ∈ K, c k := sum_erase_add K c hiK
      -- The leader beats `i`, and the scores of `i` and the leader fit in the total.
      have hlead := hj.le hiA
      have hsi := hs i hiA
      have hfit : s j + ∑ k ∈ K ∩ A, s k ≤ total A s := by
        have hnot : j ∉ K ∩ A := fun hmem => hjK (mem_inter.mp hmem).1
        rw [← sum_insert hnot]
        exact sum_le_sum_of_subset_of_nonneg (insert_subset hj.mem inter_subset_right)
          (fun k hk _ => hs k hk)
      have hconcave : ((K.card - 1 : ℤ) * (U.card - (K.card - 1)) * m) +
          (K.card + 1) * (U.card - (K.card + 1)) * m =
          2 * (K.card * (U.card - K.card) * m) - 2 * m := by ring
      linarith

/-- A new member without credit joins, and the bound may grow. -/
theorem Balanced.join {U : Finset ι} {m m' : ℤ} {c : ι → ℤ} (h : Balanced U m c)
    {x : ι} (hx : x ∉ U) (hcx : c x = 0) (hm : 0 ≤ m) (hmm : m ≤ m') :
    Balanced (insert x U) m' c := by
  refine ⟨by rw [sum_insert hx, hcx, h.zero, add_zero], fun K hK => ?_⟩
  have hK' : K.erase x ⊆ U := by
    intro i hi
    obtain ⟨hne, hmem⟩ := mem_erase.mp hi
    exact mem_of_mem_insert_of_ne (hK hmem) hne
  have hsum : ∑ i ∈ K, c i = ∑ i ∈ K.erase x, c i := (sum_erase K hcx).symm
  have hle := h.part _ hK'
  have hcard : ((K.erase x).card : ℤ) ≤ U.card := by exact_mod_cast card_le_card hK'
  have hk : (K.card : ℤ) = (K.erase x).card ∨ (K.card : ℤ) = (K.erase x).card + 1 := by
    by_cases hmem : x ∈ K
    · exact Or.inr (by exact_mod_cast (card_erase_add_one hmem).symm)
    · exact Or.inl (by rw [erase_eq_of_notMem hmem])
  have hgrow : ((K.erase x).card : ℤ) * (U.card - (K.erase x).card) ≤
      K.card * (U.card + 1 - K.card) := by
    have hpos : (0 : ℤ) ≤ (K.erase x).card := by positivity
    rcases hk with hk | hk <;> rw [hk] <;> linarith
  have hnonneg : (0 : ℤ) ≤ K.card * (U.card + 1 - K.card) :=
    le_trans (mul_nonneg (by positivity) (by omega)) hgrow
  rw [hsum, card_insert_of_notMem hx]
  push_cast
  calc ∑ i ∈ K.erase x, c i
      ≤ (K.erase x).card * (U.card - (K.erase x).card) * m := hle
    _ ≤ K.card * (U.card + 1 - K.card) * m := mul_le_mul_of_nonneg_right hgrow hm
    _ ≤ K.card * (U.card + 1 - K.card) * m' := mul_le_mul_of_nonneg_left hmm hnonneg

/-- The bound on one credit. -/
theorem Balanced.abs_credit_le {U : Finset ι} {m : ℤ} {c : ι → ℤ} (h : Balanced U m c) {i : ι}
    (hi : i ∈ U) : |c i| ≤ m * (U.card - 1) := by
  have hone := h.part {i} (singleton_subset_iff.mpr hi)
  have hrest := h.part (U.erase i) (erase_subset i U)
  have hcard : ((U.erase i).card : ℤ) = U.card - 1 := by
    have hadd : (U.erase i).card + 1 = U.card := card_erase_add_one hi
    omega
  have hsplit : ∑ k ∈ U.erase i, c k + c i = 0 := by rw [sum_erase_add U c hi, h.zero]
  rw [sum_singleton, card_singleton, Nat.cast_one] at hone
  rw [hcard] at hrest
  rw [abs_le]
  constructor <;> linarith

/-! ## Constant scores -/

/-- Rounds with one active set and constant scores, and the members that lead
them. -/
inductive Rounds (A : Finset ι) (s : ι → ℤ) : (ι → ℤ) → List ι → (ι → ℤ) → Prop
  | nil (c : ι → ℤ) : Rounds A s c [] c
  | cons {c d : ι → ℤ} {j : ι} {js : List ι} (hj : Leads A s c j)
      (h : Rounds A s (turn A s j c) js d) : Rounds A s c (j :: js) d

section Rounds

variable {A : Finset ι} {s c d : ι → ℤ} {js : List ι}

theorem Rounds.mem (h : Rounds A s c js d) : ∀ j ∈ js, j ∈ A := by
  induction h with
  | nil => simp
  | cons hj _ ih =>
    intro k hk
    rcases List.mem_cons.mp hk with rfl | hk
    · exact hj.mem
    · exact ih k hk

/-- The credits after some rounds, by the number of times each member led. -/
theorem Rounds.credit_eq (h : Rounds A s c js d) (i : ι) :
    d i = c i + (if i ∈ A then js.length * s i else 0) - js.count i * total A s := by
  induction h with
  | nil => simp
  | @cons c d j js _ _ ih =>
    rw [ih, turn, List.length_cons, List.count_cons]
    by_cases hij : i = j
    · subst hij
      simp only [beq_self_eq_true, if_true]
      split_ifs <;> push_cast <;> ring
    · have hji : (j == i) = false := by simpa using fun he => hij he.symm
      simp only [hji, hij, if_false, Bool.false_eq_true]
      split_ifs <;> push_cast <;> ring

/-- What the others can owe bounds a credit from above. -/
theorem Centred.le (h : Centred A s c) {i : ι} (hi : i ∈ A) :
    c i ≤ (A.card - 1) * total A s := by
  have hsplit : ∑ j ∈ A.erase i, c j + c i = 0 := by rw [sum_erase_add A c hi, h.zero]
  have hcard : ((A.erase i).card : ℤ) = A.card - 1 := by
    have hadd : (A.erase i).card + 1 = A.card := card_erase_add_one hi
    omega
  have howe : (A.erase i).card • (-total A s) ≤ ∑ j ∈ A.erase i, c j :=
    card_nsmul_le_sum _ _ _ (fun j hj => le_of_lt (h.lower j (mem_of_mem_erase hj)))
  rw [nsmul_eq_mul, hcard] at howe
  linarith

/-- The leader has a positive credit when it pays. -/
theorem Centred.leader_pos (h : Centred A s c) (hpos : 0 < total A s) {j : ι}
    (hj : Leads A s c j) : 0 < c j + s j := by
  by_contra hle
  have hall : ∑ i ∈ A, (c i + s i) ≤ 0 :=
    sum_nonpos (fun i hi => le_trans (hj.le hi) (not_lt.mp hle))
  rw [sum_add_distrib, h.zero] at hall
  unfold total at hpos
  omega

theorem Centred.round (h : Centred A s c) (hs : ∀ i ∈ A, 0 ≤ s i) (hpos : 0 < total A s)
    {j : ι} (hj : Leads A s c j) : Centred A s (turn A s j c) := by
  refine ⟨?_, fun i hi => ?_⟩
  · rw [sum_turn, h.zero, inter_self, if_pos hj.mem, total]
    ring
  · have hlow := h.lower i hi
    have hlead := h.leader_pos hpos hj
    have hsi := hs i hi
    simp only [turn, if_pos hi]
    split_ifs with hij
    · subst hij
      omega
    · omega

theorem Rounds.centred (h : Rounds A s c js d) (hs : ∀ i ∈ A, 0 ≤ s i)
    (hpos : 0 < total A s) (hc : Centred A s c) : Centred A s d := by
  induction h with
  | nil => exact hc
  | cons hj _ ih => exact ih (hc.round hs hpos hj)

/-- From zero credits no member is ever a full round ahead of its share. -/
theorem Rounds.count_lt (h : Rounds A s c js d) (hs : ∀ i ∈ A, 0 ≤ s i)
    (hpos : 0 < total A s) (hc : ∀ i ∈ A, c i = 0) {i : ι} (hi : i ∈ A) :
    js.count i * total A s < js.length * s i + total A s := by
  have hlow := (h.centred hs hpos (Centred.of_zero hpos hc)).lower i hi
  rw [h.credit_eq i, hc i hi, if_pos hi] at hlow
  linarith

/-- Every round is led by an active member. -/
theorem Rounds.sum_count (h : Rounds A s c js d) :
    ∑ i ∈ A, (js.count i : ℤ) = js.length := by
  have hmem := h.mem
  clear h
  induction js with
  | nil => simp
  | cons j js ih =>
    have hj : j ∈ A := hmem j (by simp)
    have hrest := ih (fun k hk => hmem k (List.mem_cons_of_mem j hk))
    have hcount : ∀ i, ((j :: js).count i : ℤ) = js.count i + if i = j then 1 else 0 := by
      intro i
      rw [List.count_cons]
      by_cases hij : i = j
      · simp [hij]
      · have hji : ¬ j = i := fun he => hij he.symm
        simp [hij, hji]
    simp only [hcount, sum_add_distrib, hrest, sum_ite_eq', if_pos hj, List.length_cons]
    push_cast
    rfl

/-- After `k` periods from zero credits every member has led exactly its share,
and the credits are zero again.  A common divisor `g` of the scores gives the
period `total A s / g`. -/
theorem Rounds.cycle (h : Rounds A s c js d) (hs : ∀ i ∈ A, 0 ≤ s i)
    (hpos : 0 < total A s) (hc : ∀ i, c i = 0) {g : ℤ} (hg : ∀ i ∈ A, g ∣ s i) {k : ℤ}
    (hlen : js.length * g = k * total A s) :
    (∀ i ∈ A, js.count i * g = k * s i) ∧ ∀ i, d i = 0 := by
  choose! q hq using hg
  have htotal : total A s = g * ∑ i ∈ A, q i := by
    rw [total, sum_congr rfl hq, mul_sum]
  have hg0 : g ≠ 0 := by
    intro h0
    rw [htotal, h0, zero_mul] at hpos
    exact lt_irrefl 0 hpos
  -- No member is ahead of its share, and the shares add up to the length.
  have hle : ∀ i ∈ A, (js.count i : ℤ) ≤ k * q i := by
    intro i hi
    have hlt := h.count_lt hs hpos (fun i _ => hc i) hi
    have hshare : (js.length : ℤ) * s i = k * q i * total A s := by
      rw [hq i hi, ← mul_assoc, hlen]
      ring
    rw [hshare] at hlt
    have hfactor : (js.count i : ℤ) * total A s < (k * q i + 1) * total A s := by linarith
    exact Int.lt_add_one_iff.mp (lt_of_mul_lt_mul_right hfactor (le_of_lt hpos))
  have hsum : ∑ i ∈ A, (js.count i : ℤ) = ∑ i ∈ A, k * q i := by
    rw [h.sum_count, ← mul_sum]
    apply mul_right_cancel₀ hg0
    rw [hlen, htotal]
    ring
  have hcount : ∀ i ∈ A, (js.count i : ℤ) = k * q i := (sum_eq_sum_iff_of_le hle).mp hsum
  refine ⟨fun i hi => ?_, fun i => ?_⟩
  · rw [hcount i hi, hq i hi]
    ring
  · rw [h.credit_eq i, hc i]
    by_cases hi : i ∈ A
    · rw [if_pos hi, hcount i hi, hq i hi, ← mul_assoc, hlen]
      ring
    · have hzero : js.count i = 0 := List.count_eq_zero.mpr (fun hmem => hi (h.mem i hmem))
      rw [if_neg hi, hzero]
      simp

/-! ## Determinism -/

theorem Rounds.split {ks : List ι} (h : Rounds A s c (js ++ ks) d) :
    ∃ e, Rounds A s c js e ∧ Rounds A s e ks d := by
  induction js generalizing c with
  | nil => exact ⟨c, .nil c, h⟩
  | cons j js ih =>
    cases h with
    | cons hj h =>
      obtain ⟨e, hleft, hright⟩ := ih h
      exact ⟨e, .cons hj hleft, hright⟩

/-- Two runs from the same credits have the same leaders. -/
theorem Rounds.getElem?_eq {ks : List ι} {e : ι → ℤ} (h : Rounds A s c js d)
    (h' : Rounds A s c ks e) {k : ℕ} (hk : k < js.length) (hk' : k < ks.length) :
    js[k]? = ks[k]? := by
  induction h generalizing ks k with
  | nil => simp at hk
  | cons hj _ ih =>
    cases h' with
    | nil => simp at hk'
    | cons hj' h' =>
      obtain rfl := hj.unique hj'
      cases k with
      | zero => rfl
      | succ k => exact ih h' (Nat.lt_of_succ_lt_succ hk) (Nat.lt_of_succ_lt_succ hk')

/-- A run that comes back to its first credits repeats itself. -/
theorem Rounds.getElem?_add {ks : List ι} (h : Rounds A s c (js ++ ks) d)
    (hback : ∀ e, Rounds A s c js e → e = c) {k : ℕ}
    (hk : js.length + k < (js ++ ks).length) :
    (js ++ ks)[js.length + k]? = (js ++ ks)[k]? := by
  obtain ⟨e, hleft, hright⟩ := h.split
  rw [hback e hleft] at hright
  rw [List.length_append] at hk
  have hks : k < ks.length := by omega
  rw [List.getElem?_append_right (Nat.le_add_right _ _), Nat.add_sub_cancel_left]
  exact hright.getElem?_eq h hks (by rw [List.length_append]; omega)

end Rounds

end Echofront.Lib.SmoothWrr
