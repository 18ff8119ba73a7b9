import Echofront.Pool.Weighted

/-!
# Weighted selection on `i64`

`select_weighted` adds up scores and current weights on `i64`, with plain sums.
`Pool.selectWeighted` has exact integers in their place.  Here is the same loop with every
sum wrapped, as a release build computes it.

* `selectWeightedI64_spec` ties the two together.  Only the last of several sums has to be
  wrapped, so what the wrapped loop returns is the exact result with one current weight
  wrapped, unless a weight that takes its score leaves the range.
* `i64System` is the pool under churn with these selections, and `RoomToSelect` the
  condition on a pool that keeps a weighted selection in range.
* `weighted_cycle_in_range` is the exact cycle of `cycle_of_steady` for the wrapped
  selections.  `weighted_cycle_wraps` is a pool whose scores sum to more than `i64::MAX`.
  Its second selection returns the backend of the first one again.
-/

namespace Echofront

open Lib Lib.SmoothWrr

/-- The integer is the value of an `i64`. -/
def IsI64 (x : Int) : Prop := -i64Max - 1 ≤ x ∧ x ≤ i64Max

theorem IsI64.wrap_eq {x : Int} (h : IsI64 x) : wrapI64 x = x := wrapI64_eq h.1 h.2

namespace Pool

/-- `self.backends[i].current_weight += x` on an `i64`. -/
def addWeightI64 (p : Pool) (i : Nat) (x : Int) : Pool :=
  p.modify i (fun w => { w with currentWeight := wrapI64 (w.currentWeight + x) })

/-- One turn of the loop of `select_weighted` on `i64`. -/
def WeightedLoop.visitI64 (s : WeightedLoop) (i : Nat) : WeightedLoop :=
  if (s.pool.backend i).weight = 0 then s
  else
    let score := wrapI64 (s.pool.weightedScore i)
    let pool := s.pool.addWeightI64 i score
    { best := pool.heavier s.best i
      total := wrapI64 (s.total + score)
      pool := pool }

/-- `select_weighted` on `i64`. -/
def selectWeightedI64 (p : Pool) (available : List Nat) : Option Nat × Pool :=
  let s := available.foldl WeightedLoop.visitI64 ⟨none, 0, p⟩
  match s.best with
  | none => (none, s.pool)
  | some b => (some b, s.pool.addWeightI64 b (-s.total))

/-- `Pool::select` on `i64`. -/
def selectI64 (p : Pool) (now : Nat) (key : Option String) (exclude : List Nat) :
    Option Nat × Pool :=
  let available := p.availableIndices now exclude
  if available.isEmpty then (none, p)
  else
    match p.strategy with
    | .weighted => p.selectWeightedI64 available
    | _ => p.select now key exclude

/-! ## What the wrapped loop computes -/

/-- The current weight of backend `i`, wrapped. -/
def wrapWeight (p : Pool) (i : Nat) : Pool :=
  p.modify i (fun w => { w with currentWeight := wrapI64 w.currentWeight })

theorem addWeightI64_eq (p : Pool) (i : Nat) (x : Int) :
    p.addWeightI64 i x = (p.addWeight i x).wrapWeight i := by
  simp only [addWeightI64, wrapWeight, addWeight, modify, List.modify_modify_eq]
  rfl

theorem selectFrame_wrapWeight (p : Pool) (i : Nat) : SelectFrame p (p.wrapWeight i) := by
  refine ⟨rfl, rfl, rfl, rfl, ?_⟩
  apply List.ext_getElem?
  intro j
  simp only [wrapWeight, modify, List.getElem?_map, List.getElem?_modify]
  cases p.backends[j]? with
  | none => rfl
  | some b =>
    by_cases hij : i = j <;> simp [hij, Backend.eraseWeight]

theorem credit_wrapWeight (p : Pool) (i j : Nat) :
    (p.wrapWeight i).credit j = if j = i then wrapI64 (p.credit j) else p.credit j := by
  unfold credit wrapWeight
  by_cases hj : j = i
  · subst hj
    rw [if_pos rfl]
    by_cases hlt : j < p.backends.length
    · rw [backend_modify_self hlt]
    · have hge := Nat.le_of_not_lt hlt
      rw [backend_of_ge (by simpa using hge), backend_of_ge hge]
      rfl
  · rw [if_neg hj, backend_modify_ne (Ne.symm hj)]

/-- A weight that fits stays as it is. -/
theorem wrapWeight_eq_self {p : Pool} {i : Nat} (h : IsI64 (p.credit i)) :
    p.wrapWeight i = p := by
  have hbackends : p.backends.modify i
      (fun w => { w with currentWeight := wrapI64 w.currentWeight }) = p.backends := by
    apply List.ext_getElem?
    intro j
    rw [List.getElem?_modify]
    cases hb : p.backends[j]? with
    | none => rfl
    | some b =>
      by_cases hij : i = j
      · subst hij
        have hcredit : IsI64 b.currentWeight := by
          rwa [credit, backend_eq_of_getElem? hb] at h
        simp [hcredit.wrap_eq]
      · simp [hij]
  unfold wrapWeight modify
  rw [hbackends]

/-- The pool after the exact selection, with the weight of the picked backend wrapped. -/
def wrapPick : Option Nat × Pool → Option Nat × Pool
  | (none, q) => (none, q)
  | (some b, q) => (some b, q.wrapWeight b)

/-- The locals of the loop with the total wrapped. -/
def WeightedLoop.wrapTotal (s : WeightedLoop) : WeightedLoop :=
  { s with total := wrapI64 s.total }

/-- The score of backend `i`, and its current weight with the score added, fit. -/
def TakesScore (p : Pool) (i : Nat) : Prop :=
  IsI64 (p.weightedScore i) ∧ IsI64 (p.credit i + p.weightedScore i)

/-- A turn that skips its backend, or adds a score that fits, wraps the total only. -/
theorem visitI64_wrapTotal {s : WeightedLoop} {i : Nat}
    (h : (s.pool.backend i).weight ≠ 0 → s.pool.TakesScore i) :
    s.wrapTotal.visitI64 i = (s.visit i).wrapTotal := by
  by_cases hw : (s.pool.backend i).weight = 0
  · simp [WeightedLoop.visitI64, WeightedLoop.visit, WeightedLoop.wrapTotal, hw]
  · obtain ⟨hscore, hsum⟩ := h hw
    have hlt := lt_length_of_weight hw
    have hpool : s.pool.addWeightI64 i (wrapI64 (s.pool.weightedScore i)) =
        s.pool.addWeight i (s.pool.weightedScore i) := by
      rw [hscore.wrap_eq, addWeightI64_eq]
      refine wrapWeight_eq_self ?_
      rw [credit, currentWeight_addWeight hlt, if_pos rfl]
      exact hsum
    have htotal : wrapI64 (wrapI64 s.total + wrapI64 (s.pool.weightedScore i)) =
        wrapI64 (s.total + s.pool.weightedScore i) := by
      rw [hscore.wrap_eq, wrapI64_wrapI64_add]
    simp only [WeightedLoop.visitI64, WeightedLoop.visit, WeightedLoop.wrapTotal, if_neg hw,
      hpool, htotal]

/-- The wrapped loop is the exact loop with its total wrapped, as long as the weights
that take their scores fit. -/
theorem foldl_visitI64 {p : Pool} {available : List Nat} (hlt : available.Pairwise (· < ·))
    (h : ∀ i ∈ p.weightedOf available, p.TakesScore i) :
    available.foldl WeightedLoop.visitI64 ⟨none, 0, p⟩ =
      (available.foldl WeightedLoop.visit ⟨none, 0, p⟩).wrapTotal := by
  induction available using List.reverseRecOn with
  | nil => rfl
  | append_singleton vs i ih =>
    obtain ⟨hvs, _, hi⟩ := List.pairwise_append.mp hlt
    have hold : ∀ j ∈ p.weightedOf vs, p.TakesScore j := fun j hj =>
      h j (by simp only [weightedOf, List.filter_append] at hj ⊢; exact List.mem_append_left _ hj)
    rw [List.foldl_append, List.foldl_append, ih hvs hold]
    have hv := visited p hvs
    generalize vs.foldl WeightedLoop.visit ⟨none, 0, p⟩ = s at hv ⊢
    -- the index `i` comes later than the visited ones, so its weight is untouched
    have hnot : i ∉ p.weightedOf vs := fun hm =>
      Nat.lt_irrefl i (hi i (List.mem_of_mem_filter hm) i (by simp))
    refine visitI64_wrapTotal fun hw => ?_
    rw [hv.frame.weight] at hw
    obtain ⟨hscore, hsum⟩ := h i (by simp [weightedOf, hw])
    have hcurrent := hv.current i
    rw [if_neg hnot, add_zero] at hcurrent
    refine ⟨by rwa [hv.frame.weightedScore], ?_⟩
    rw [hv.frame.weightedScore, credit, hcurrent]
    exact hsum

/-- The wrapped selection returns what the exact one does, and wraps the weight of the
picked backend. -/
theorem selectWeightedI64_spec {p : Pool} {available : List Nat}
    (hlt : available.Pairwise (· < ·)) (h : ∀ i ∈ p.weightedOf available, p.TakesScore i) :
    p.selectWeightedI64 available = wrapPick (p.selectWeighted available) := by
  unfold selectWeightedI64 selectWeighted
  rw [foldl_visitI64 hlt h]
  generalize available.foldl WeightedLoop.visit ⟨none, 0, p⟩ = s
  cases hb : s.best with
  | none => simp only [WeightedLoop.wrapTotal, hb, wrapPick]
  | some b =>
    have hpay : s.pool.addWeightI64 b (-wrapI64 s.total) =
        (s.pool.addWeight b (-s.total)).wrapWeight b := by
      rw [← addWeightI64_eq, addWeightI64, addWeightI64]
      simp only [wrapI64_sub_wrapI64]
    simp only [WeightedLoop.wrapTotal, hb, wrapPick, hpay]

/-- A wrapped selection is the exact one if the weight of the picked backend fits as
well. -/
theorem selectWeightedI64_eq {p : Pool} {available : List Nat}
    (hlt : available.Pairwise (· < ·)) (h : ∀ i ∈ p.weightedOf available, p.TakesScore i)
    (hafter : ∀ b, (p.selectWeighted available).1 = some b →
      IsI64 ((p.selectWeighted available).2.credit b)) :
    p.selectWeightedI64 available = p.selectWeighted available := by
  rw [selectWeightedI64_spec hlt h]
  generalize p.selectWeighted available = r at hafter ⊢
  obtain ⟨picked, q⟩ := r
  cases picked with
  | none => rfl
  | some b => simp only [wrapPick, wrapWeight_eq_self (hafter b rfl)]

theorem selectI64_of_unavailable {p : Pool} {now : Nat} {exclude : List Nat}
    (h : p.availableIndices now exclude = []) (key : Option String) :
    p.selectI64 now key exclude = p.select now key exclude := by
  rw [select_of_unavailable key h, selectI64, h]
  rfl

theorem selectI64_of_weighted {p : Pool} (hs : p.strategy = .weighted) (now : Nat)
    (key : Option String) (exclude : List Nat) :
    p.selectI64 now key exclude = p.selectWeightedI64 (p.availableIndices now exclude) := by
  unfold selectI64
  by_cases hne : p.availableIndices now exclude = []
  · simp [hne, selectWeightedI64]
  · simp [hne, hs]

/-- No other strategy reads a current weight. -/
theorem selectI64_of_ne {p : Pool} (hs : p.strategy ≠ .weighted) (now : Nat)
    (key : Option String) (exclude : List Nat) :
    p.selectI64 now key exclude = p.select now key exclude := by
  by_cases hne : p.availableIndices now exclude = []
  · exact selectI64_of_unavailable hne key
  · unfold selectI64
    cases h : p.strategy with
    | weighted => exact absurd h hs
    | _ => simp [hne]

/-! ## In range -/

/-- The active backends are those that the loop does not skip. -/
theorem mem_weightedOf_iff {p : Pool} {now : Nat} {exclude : List Nat} {i : Nat} :
    i ∈ p.weightedOf (p.availableIndices now exclude) ↔ i ∈ p.activeSet now exclude := by
  rw [activeSet, List.mem_toFinset]

/-- A weighted selection agrees with the exact one if the scores, the weights that take
them and the weight of the picked backend fit. -/
theorem selectI64_eq {p : Pool} (hs : p.strategy = .weighted) {now : Nat}
    {key : Option String} {exclude : List Nat}
    (h : ∀ i ∈ p.activeSet now exclude, p.TakesScore i)
    (hafter : ∀ b, (p.select now key exclude).1 = some b →
      IsI64 ((p.select now key exclude).2.credit b)) :
    p.selectI64 now key exclude = p.select now key exclude := by
  have hexact := selectWeighted_eq_select hs now key exclude
  rw [selectI64_of_weighted hs, ← hexact]
  refine selectWeightedI64_eq (p.pairwise_availableIndices now exclude)
    (fun i hi => h i (mem_weightedOf_iff.mp hi)) ?_
  rwa [hexact]

/-- Below `2 ^ 63` the bound of `weighted_bounded` keeps a selection in range. -/
theorem Churned.selectI64_eq {p : Pool} (h : Churned p) {n M : Nat}
    (hn : p.backends.length ≤ n) (hM : p.totalWeight ≤ M) (hlt : (100 * M * n : Int) < 2 ^ 63)
    (now : Nat) (key : Option String) (exclude : List Nat) :
    p.selectI64 now key exclude = p.select now key exclude := by
  rcases Nat.eq_zero_or_pos p.backends.length with hnil | hpos
  · exact selectI64_of_unavailable (by simp [availableIndices, hnil]) key
  have h1 : 1 ≤ n := Nat.le_trans hpos hn
  by_cases hs : p.strategy = .weighted
  · have hM0 : (0 : Int) ≤ 100 * M := by positivity
    have hsplit : (100 * M * n : Int) = 100 * M * (n - 1) + 100 * M := by ring
    have hmax : i64Max = 2 ^ 63 - 1 := rfl
    have h1' : (0 : Int) ≤ n - 1 := by
      have hcast : (1 : Int) ≤ n := by exact_mod_cast h1
      omega
    refine Pool.selectI64_eq hs (fun i hi => ?_) (fun b _ => ?_)
    · have hcredit := abs_le.mp (h.abs_credit_le hn hM h1 i)
      have hscore : p.weightedScore i ≤ 100 * M := by
        have hsub : {i} ⊆ Finset.range p.backends.length :=
          Finset.singleton_subset_iff.mpr (p.activeSet_subset now exclude hi)
        have hle := total_le h.ramp hsub
        have hM' : (p.totalWeight : Int) ≤ M := by exact_mod_cast hM
        rw [total, Finset.sum_singleton] at hle
        omega
      have hnonneg := p.weightedScore_nonneg i
      have hC : (0 : Int) ≤ 100 * M * (n - 1) := mul_nonneg hM0 h1'
      exact ⟨⟨by omega, by omega⟩, by omega, by omega⟩
    · have hf := p.selectFrame_select now key exclude
      have hcredit := abs_le.mp ((h.select now key exclude).abs_credit_le
        (Nat.le_trans (Nat.le_of_eq hf.length) hn)
        (Nat.le_trans (Nat.le_of_eq hf.totalWeight) hM) h1 b)
      exact ⟨by omega, by omega⟩
  · exact selectI64_of_ne hs now key exclude

def applyI64 (p : Pool) : Op → Pool
  | .select now key exclude => (p.selectI64 now key exclude).2
  | op => p.apply op

def churnI64 (p : Pool) : Churn → Pool
  | .call op => p.applyI64 op
  | .change q => q

end Pool

/-- The pool under churn, with its selections on `i64`. -/
def i64System : System Pool Churn where
  init := churnSystem.init
  ok := churnSystem.ok
  step := Pool.churnI64

namespace Pool

/-- What a weighted selection on `i64` returns. -/
def weightedPickI64 (p : Pool) : Churn → Option (Option Nat)
  | .call (.select now key exclude) =>
    if p.strategy = .weighted then some (p.selectI64 now key exclude).1 else none
  | _ => none

/-- What the weighted selections of a run on `i64` return. -/
def weightedPicksI64 (p : Pool) (as : List Churn) : List (Option Nat) :=
  i64System.events weightedPickI64 p as

/-- If the step is a weighted selection, the scores of the active backends sum to an
`i64`, and so does each of their current weights with its score. -/
def RoomToSelect (p : Pool) : Churn → Prop
  | .call (.select now _ exclude) => p.strategy = .weighted →
    total (p.activeSet now exclude) p.weightedScore ≤ i64Max ∧
      ∀ i ∈ p.activeSet now exclude, p.credit i + p.weightedScore i ≤ i64Max
  | _ => True

/-- A step that is no selection, or whose selection agrees with the exact one. -/
theorem churnI64_eq {p : Pool} {a : Churn}
    (h : ∀ now key exclude, a = .call (.select now key exclude) →
      p.selectI64 now key exclude = p.select now key exclude) :
    p.churnI64 a = p.churn a ∧ weightedPickI64 p a = weightedPick p a := by
  cases a with
  | change q => exact ⟨rfl, rfl⟩
  | call op =>
    cases op with
    | select now key exclude =>
      have heq := h now key exclude rfl
      exact ⟨congrArg Prod.snd heq, by rw [weightedPickI64, weightedPick, heq]⟩
    | _ => exact ⟨rfl, rfl⟩

/-- A step that agrees with the exact one, before a run that does. -/
theorem exec_i64_cons {p : Pool} {a : Churn} {as : List Churn}
    (hstep : p.churnI64 a = p.churn a ∧ weightedPickI64 p a = weightedPick p a)
    (hrest : i64System.exec (p.churn a) as = churnSystem.exec (p.churn a) as ∧
      weightedPicksI64 (p.churn a) as = weightedPicks (p.churn a) as) :
    i64System.exec p (a :: as) = churnSystem.exec p (a :: as) ∧
      weightedPicksI64 p (a :: as) = weightedPicks p (a :: as) := by
  obtain ⟨hnext, hpick⟩ := hstep
  refine ⟨?_, ?_⟩
  · show i64System.exec (p.churnI64 a) as = churnSystem.exec (p.churn a) as
    rw [hnext]
    exact hrest.1
  · show (weightedPickI64 p a).toList ++ weightedPicksI64 (p.churnI64 a) as =
      (weightedPick p a).toList ++ weightedPicks (p.churn a) as
    rw [hpick, hnext, hrest.2]

/-- From a state under churn, a run that ends within the bound is the exact run. -/
theorem Churned.exec_i64 {p : Pool} (h : Churned p) {as : List Churn}
    (hv : churnSystem.Valid p as) (hr : ∀ a ∈ as, a.RampsOk)
    (hrange : (100 * (churnSystem.exec p as).totalWeight *
      (churnSystem.exec p as).backends.length : Int) < 2 ^ 63) :
    i64System.Valid p as ∧ i64System.exec p as = churnSystem.exec p as ∧
      weightedPicksI64 p as = weightedPicks p as := by
  induction as generalizing p with
  | nil => exact ⟨trivial, rfl, rfl⟩
  | cons a as ih =>
    obtain ⟨hlen, hweight⟩ := grows_exec hv
    have h' : Churned (p.churn a) := churned_churn h hv.1 (hr a (by simp))
    have hstep : p.churnI64 a = p.churn a ∧ weightedPickI64 p a = weightedPick p a :=
      churnI64_eq fun now key exclude _ => h.selectI64_eq hlen hweight hrange now key exclude
    obtain ⟨hvalid, hrest⟩ := ih h' hv.2 (fun b hb => hr b (by simp [hb])) hrange
    have hnext : i64System.step p a = p.churn a := hstep.1
    exact ⟨⟨hv.1, hnext ▸ hvalid⟩, exec_i64_cons hstep hrest⟩

/-! ## A constant set of backends -/

section Steady

variable {A : Finset Nat} {s : Nat → Nat} {p : Pool}

/-- From centred credits a step with room agrees with the exact one. -/
theorem churnI64_of_room (hW : 0 < ∑ i ∈ A, s i)
    (hc : Centred A (fun i => (s i : Int)) p.credit) {a : Churn} (hsel : SelectsFrom A s p a)
    (hroom : RoomToSelect p a) :
    p.churnI64 a = p.churn a ∧ weightedPickI64 p a = weightedPick p a := by
  refine churnI64_eq fun now key exclude ha => ?_
  subst ha
  by_cases hs : p.strategy = .weighted
  · obtain ⟨hactive, hscore⟩ := hsel hs
    obtain ⟨htotal, hsum⟩ := hroom hs
    have hpos := total_natCast_pos hW
    have hmax : i64Max = 2 ^ 63 - 1 := rfl
    have hscores : total A p.weightedScore = total A (fun i => (s i : Int)) :=
      Finset.sum_congr rfl hscore
    rw [hactive, hscores] at htotal
    rw [hactive] at hsum
    refine selectI64_eq hs (fun i hi => ?_) (fun b hb => ?_)
    · rw [hactive] at hi
      have hlow := hc.lower i hi
      have hnonneg := p.weightedScore_nonneg i
      have hone : p.weightedScore i ≤ total A p.weightedScore :=
        Finset.single_le_sum (fun j _ => p.weightedScore_nonneg j) hi
      have hfit := hsum i hi
      exact ⟨⟨by omega, by omega⟩, by omega, by omega⟩
    · rcases select_weighted_cases hs now key exclude with ⟨_, heq⟩ | ⟨b', hb', hlead, hcredit⟩
      · simp [heq] at hb
      · obtain rfl := Option.some.inj (hb.symm.trans hb')
        rw [hactive] at hlead hcredit
        have hlead' := hlead.congr hscore
        have hpaid := hc.leader_pos hpos hlead'
        have hfit := hsum b hlead.mem
        have hb := hscore b hlead.mem
        rw [hcredit, turn, if_pos hlead.mem, if_pos rfl, hscores]
        exact ⟨by omega, by omega⟩
  · exact selectI64_of_ne hs now key exclude

/-- An exact step of a steady run keeps the credits centred. -/
theorem centred_churn (hW : 0 < ∑ i ∈ A, s i)
    (hc : Centred A (fun i => (s i : Int)) p.credit) {a : Churn} (hok : churnSystem.ok p a)
    (hsel : SelectsFrom A s p a) : Centred A (fun i => (s i : Int)) (p.churn a).credit := by
  have hA : A.Nonempty := Finset.nonempty_of_sum_ne_zero (Nat.ne_of_gt hW)
  have hv : churnSystem.Valid p [a] := ⟨hok, trivial⟩
  obtain ⟨js, _, hrounds⟩ := rounds_of_steady hA hv ⟨hsel, trivial⟩
  exact hrounds.centred (fun i _ => by positivity) (total_natCast_pos hW) hc

/-- A small sum of the scores leaves room for every selection of a steady run. -/
theorem roomToSelect_of_card (hW : 0 < ∑ i ∈ A, s i)
    (hcard : (A.card * ∑ i ∈ A, s i : Nat) ≤ i64Max)
    (hc : Centred A (fun i => (s i : Int)) p.credit) {a : Churn}
    (hsel : SelectsFrom A s p a) : RoomToSelect p a := by
  cases a with
  | change q => trivial
  | call op =>
    cases op with
    | select now key exclude =>
      intro hs
      obtain ⟨hactive, hscore⟩ := hsel hs
      have hA : A.Nonempty := Finset.nonempty_of_sum_ne_zero (Nat.ne_of_gt hW)
      have hscores : total A p.weightedScore = ((∑ i ∈ A, s i : Nat) : Int) :=
        (Finset.sum_congr rfl hscore).trans (total_natCast A s)
      have hone : ∑ i ∈ A, s i ≤ A.card * ∑ i ∈ A, s i :=
        Nat.le_mul_of_pos_left _ hA.card_pos
      rw [hactive, hscores]
      refine ⟨by omega, fun i hi => ?_⟩
      have hle := hc.le hi
      have hsi : s i ≤ ∑ i ∈ A, s i := Finset.single_le_sum (fun _ _ => Nat.zero_le _) hi
      rw [total_natCast, sub_one_mul] at hle
      rw [hscore i hi]
      push_cast at hcard hle ⊢
      have hsi' : (s i : Int) ≤ ∑ i ∈ A, (s i : Int) := by exact_mod_cast hsi
      omega
    | _ => trivial

variable {as : List Churn}

/-- A steady run with room for every selection is the exact run. -/
theorem exec_of_room (hW : 0 < ∑ i ∈ A, s i)
    (hc : Centred A (fun i => (s i : Int)) p.credit) (hv : i64System.Valid p as)
    (hsteady : i64System.Always (SelectsFrom A s) p as)
    (hroom : i64System.Always RoomToSelect p as) :
    churnSystem.Valid p as ∧ churnSystem.Always (SelectsFrom A s) p as ∧
      i64System.exec p as = churnSystem.exec p as ∧
      weightedPicksI64 p as = weightedPicks p as := by
  induction as generalizing p with
  | nil => exact ⟨trivial, trivial, rfl, rfl⟩
  | cons a as ih =>
    have hstep := churnI64_of_room hW hc hsteady.1 hroom.1
    have hc' : Centred A (fun i => (s i : Int)) (churnSystem.step p a).credit :=
      centred_churn hW hc hv.1 hsteady.1
    have hnext : i64System.step p a = churnSystem.step p a := hstep.1
    obtain ⟨hvs, hsts, hrest⟩ := ih hc' (hnext ▸ hv.2) (hnext ▸ hsteady.2) (hnext ▸ hroom.2)
    exact ⟨⟨hv.1, hvs⟩, ⟨hsteady.1, hsts⟩, exec_i64_cons hstep hrest⟩

theorem always_room_of_card (hW : 0 < ∑ i ∈ A, s i)
    (hcard : (A.card * ∑ i ∈ A, s i : Nat) ≤ i64Max)
    (hc : Centred A (fun i => (s i : Int)) p.credit) (hv : i64System.Valid p as)
    (hsteady : i64System.Always (SelectsFrom A s) p as) :
    i64System.Always RoomToSelect p as := by
  induction as generalizing p with
  | nil => trivial
  | cons a as ih =>
    have hroom := roomToSelect_of_card hW hcard hc hsteady.1
    have hnext : i64System.step p a = churnSystem.step p a :=
      (churnI64_of_room hW hc hsteady.1 hroom).1
    have hc' : Centred A (fun i => (s i : Int)) (churnSystem.step p a).credit :=
      centred_churn hW hc hv.1 hsteady.1
    exact ⟨hroom, hnext ▸ ih hc' (hnext ▸ hv.2) (hnext ▸ hsteady.2)⟩

/-- Weighted selection on `i64` is exact in range.  Let the current weights be zero and let
the active set `A` and the scores `s` not change, with a positive sum `W`.  If no selection
takes a sum out of range,

* no backend is ever a full selection ahead of its share, and no backend outside the active
  set is picked, in particular none of weight zero,
* with `g` the greatest common divisor of the positive scores, after every `k` periods of
  `W / g` selections each backend has been picked exactly `k * (s i / g)` times and all
  current weights are zero,
* and the picks repeat with the period `W / g`.

With `n` active backends no selection does so while `n * W` is at most `i64::MAX`. -/
theorem weighted_cycle_in_range (hzero : ∀ i, (p.backend i).currentWeight = 0)
    (hv : i64System.Valid p as) (hsteady : i64System.Always (SelectsFrom A s) p as)
    (hW : 0 < ∑ i ∈ A, s i) :
    let W := ∑ i ∈ A, s i
    let g := (A.filter (fun i => 0 < s i)).gcd s
    let picks := weightedPicksI64 p as
    (i64System.Always RoomToSelect p as →
      (∀ i ∈ A, picks.count (some i) * W < picks.length * s i + W) ∧
      (∀ i, some i ∈ picks → i ∈ A) ∧
      (∀ i < p.backends.length, (p.backend i).weight = 0 → some i ∉ picks) ∧
      (∀ k, picks.length = k * (W / g) →
        (∀ i ∈ A, picks.count (some i) = k * (s i / g)) ∧
          ∀ i, ((i64System.exec p as).backend i).currentWeight = 0) ∧
      ∀ k, k + W / g < picks.length → picks[k + W / g]? = picks[k]?) ∧
    ((A.card * W : Nat) ≤ i64Max → i64System.Always RoomToSelect p as) := by
  intro W g picks
  have hc : Centred A (fun i => (s i : Int)) p.credit :=
    .of_zero (total_natCast_pos hW) (fun i _ => hzero i)
  refine ⟨fun hroom => ?_, fun hcard => always_room_of_card hW hcard hc hv hsteady⟩
  obtain ⟨hvs, hsts, hexec, hpicks⟩ := exec_of_room hW hc hv hsteady hroom
  rw [show picks = weightedPicks p as from hpicks, hexec]
  exact cycle_of_steady hzero hvs hsts hW

end Steady

/-- Of three selections from the weights 1 and 2, the second backend gets two. -/
theorem weighted_cycle_in_range_two :
    (weightedPicksI64 (churnSystem.exec (Pool.new "api" .weighted .default) twoWeighted)
      threeSelects).count (some 1) = 2 := by
  have hzero : ∀ i, ((churnSystem.exec (Pool.new "api" .weighted .default)
      twoWeighted).backend i).currentWeight = 0
    | 0 => rfl
    | 1 => rfl
    | _ + 2 => rfl
  have hsteady : i64System.Always
      (SelectsFrom {0, 1} (fun i => if i = 0 then 100 else 200))
      (churnSystem.exec (Pool.new "api" .weighted .default) twoWeighted) threeSelects :=
    ⟨fun _ => by decide, fun _ => by decide, fun _ => by decide, trivial⟩
  have hv : i64System.Valid (churnSystem.exec (Pool.new "api" .weighted .default) twoWeighted)
      threeSelects := ⟨trivial, trivial, trivial, trivial⟩
  obtain ⟨hcycle, hroom⟩ := weighted_cycle_in_range hzero hv hsteady (by decide)
  exact ((hcycle (hroom (by decide))).2.2.2.1 1 (by decide)).1 1 (by decide)

/-! ## Out of range -/

/-- A backend of the greatest weight. -/
def heavyBackend : Backend := .new "a" u32Max .default .default

/-- The score of that backend. -/
def heavyScore : Nat := u32Max * 100

/-- The backends `0` to `n - 1` are active at time zero and have that score. -/
structure Level (n : Nat) (p : Pool) : Prop where
  strategy : p.strategy = .weighted
  active : p.activeSet 0 [] = Finset.range n
  score : ∀ i < n, p.weightedScore i = heavyScore

theorem Level.frame {n : Nat} {p q : Pool} (h : Level n p) (hf : SelectFrame p q) :
    Level n q := by
  refine ⟨hf.strategy.trans h.strategy, ?_, fun i hi => ?_⟩
  · rw [← h.active]
    ext i
    rw [mem_activeSet, mem_activeSet, hf.availableIndices, hf.weight]
  · rw [hf.weightedScore, h.score i hi]

theorem Level.selectsFrom {n : Nat} {p : Pool} (h : Level n p) :
    SelectsFrom (Finset.range n) (fun _ => heavyScore) p (.call (.select 0 none [])) :=
  fun _ => ⟨h.active, fun i hi => h.score i (Finset.mem_range.mp hi)⟩

/-- On level scores the first backend is picked if no credit is greater than its own. -/
theorem Level.pick {n : Nat} {p : Pool} (h : Level n p) (hn : 0 < n)
    (hle : ∀ i < n, p.credit i ≤ p.credit 0)
    (hfit : ∀ i < n, IsI64 (p.credit i + heavyScore)) :
    (p.selectI64 0 none []).1 = some 0 ∧ SelectFrame p (p.selectI64 0 none []).2 ∧
      (p.selectI64 0 none []).2.credit 0 =
        wrapI64 (p.credit 0 + heavyScore - n * heavyScore) ∧
      ∀ i < n, i ≠ 0 → (p.selectI64 0 none []).2.credit i = p.credit i + heavyScore := by
  have hscore : ∀ i ∈ Finset.range n, p.weightedScore i = (heavyScore : Int) := fun i hi =>
    h.score i (Finset.mem_range.mp hi)
  have htakes : ∀ i ∈ p.weightedOf (p.availableIndices 0 []), p.TakesScore i := by
    intro i hi
    rw [mem_weightedOf_iff, h.active] at hi
    rw [TakesScore, hscore i hi]
    exact ⟨⟨by decide, by decide⟩, hfit i (Finset.mem_range.mp hi)⟩
  have hzero : Leads (Finset.range n) p.weightedScore p.credit 0 := by
    refine ⟨Finset.mem_range.mpr hn, fun i hi => ?_⟩
    rw [hscore i hi, hscore 0 (Finset.mem_range.mpr hn)]
    have hcredit := hle i (Finset.mem_range.mp hi)
    omega
  have hframe := p.selectFrame_select 0 none []
  rw [selectI64_of_weighted h.strategy,
    selectWeightedI64_spec (p.pairwise_availableIndices 0 []) htakes,
    selectWeighted_eq_select h.strategy 0 none]
  rcases select_weighted_cases h.strategy 0 none [] with ⟨hempty, _⟩ | ⟨b, hb, hlead, hcredit⟩
  · rw [h.active] at hempty
    exact absurd hempty (Finset.nonempty_range_iff.mpr (Nat.ne_of_gt hn)).ne_empty
  · rw [h.active] at hlead hcredit
    obtain rfl := hzero.unique hlead
    generalize p.select 0 none [] = r at hb hcredit hframe ⊢
    obtain ⟨picked, q⟩ := r
    obtain rfl : picked = some 0 := hb
    have htotal : total (Finset.range n) p.weightedScore = n * heavyScore := by
      rw [total, Finset.sum_congr rfl hscore, Finset.sum_const, Finset.card_range,
        nsmul_eq_mul]
    have hq : ∀ i < n, q.credit i =
        p.credit i + heavyScore - if i = 0 then (n * heavyScore : Int) else 0 := by
      intro i hi
      have hmem := Finset.mem_range.mpr hi
      rw [show q.credit = _ from hcredit, turn, if_pos hmem, hscore i hmem, htotal]
    refine ⟨rfl, hframe.trans (selectFrame_wrapWeight q 0), ?_, fun i hi hne => ?_⟩
    · rw [wrapPick, credit_wrapWeight, if_pos rfl, hq 0 hn, if_pos rfl]
    · rw [wrapPick, credit_wrapWeight, if_neg hne, hq i hi, if_neg hne, sub_zero]

/-- Two selections. -/
def twoSelects : List Churn := List.replicate 2 (.call (.select 0 none []))

/-- From zero credits two selections on level scores return the first backend, if the
scores sum to a value above `i64::MAX` that wraps to a negative one. -/
theorem Level.picks_twice {n : Nat} {p : Pool} (h : Level n p)
    (hzero : ∀ i, p.credit i = 0) (hlo : 2 ^ 63 + 2 * heavyScore < n * heavyScore)
    (hhi : n * heavyScore ≤ 2 ^ 64) :
    i64System.Always (SelectsFrom (Finset.range n) fun _ => heavyScore) p twoSelects ∧
      weightedPicksI64 p twoSelects = [some 0, some 0] := by
  have hscore : heavyScore = 429496729500 := rfl
  have hmax : i64Max = 2 ^ 63 - 1 := rfl
  have hn : 0 < n := by
    rcases Nat.eq_zero_or_pos n with rfl | hn
    · omega
    · exact hn
  have hlo' : (2 ^ 63 + 2 * heavyScore : Int) < n * heavyScore := by exact_mod_cast hlo
  have hhi' : (n * heavyScore : Int) ≤ 2 ^ 64 := by exact_mod_cast hhi
  obtain ⟨hfirst, hframe, hcredit, hrest⟩ := h.pick hn (fun i _ => by rw [hzero, hzero])
    (fun i _ => by rw [hzero i]; exact ⟨by omega, by omega⟩)
  have hlevel := h.frame hframe
  -- the first backend has paid the wrapped total, and is far ahead of the others
  have hahead : (p.selectI64 0 none []).2.credit 0 =
      heavyScore - n * heavyScore + 2 ^ 64 := by
    have hfit : IsI64 (heavyScore - n * heavyScore + 2 ^ 64) := ⟨by omega, by omega⟩
    rw [hcredit, hzero 0, zero_add, ← hfit.wrap_eq, wrapI64, wrapI64]
    exact (Int.add_bmod_right _ _).symm
  have hother : ∀ i < n, i ≠ 0 → (p.selectI64 0 none []).2.credit i = heavyScore := by
    intro i hi hne
    rw [hrest i hi hne, hzero i, zero_add]
  obtain ⟨hsecond, _⟩ := hlevel.pick hn
    (fun i hi => by
      by_cases hne : i = 0
      · rw [hne]
      · rw [hother i hi hne, hahead]
        omega)
    (fun i hi => by
      by_cases hne : i = 0
      · rw [hne, hahead]
        exact ⟨by omega, by omega⟩
      · rw [hother i hi hne]
        exact ⟨by omega, by omega⟩)
  refine ⟨⟨h.selectsFrom, hlevel.selectsFrom, trivial⟩, ?_⟩
  have hstep : ∀ q : Pool, q.strategy = .weighted → (q.selectI64 0 none []).1 = some 0 →
      weightedPickI64 q (.call (.select 0 none [])) = some (some 0) := by
    intro q hq hpick
    rw [weightedPickI64, if_pos hq, hpick]
  show (weightedPickI64 p _).toList ++ ((weightedPickI64 (p.selectI64 0 none []).2 _).toList ++ [])
    = [some 0, some 0]
  rw [hstep p h.strategy hfirst, hstep _ hlevel.strategy hsecond]
  rfl

/-- A pool of `n` such backends. -/
def heavyPool (n : Nat) : List Churn := List.replicate n (.call (.addBackend heavyBackend))

theorem heavyPool_spec (n : Nat) (p : Pool) :
    i64System.Valid p (heavyPool n) ∧ (i64System.exec p (heavyPool n)).strategy = p.strategy ∧
      (i64System.exec p (heavyPool n)).backends =
        p.backends ++ List.replicate n heavyBackend := by
  induction n generalizing p with
  | zero => exact ⟨trivial, rfl, (List.append_nil _).symm⟩
  | succ n ih =>
    obtain ⟨hv, hs, hb⟩ := ih (p.addBackend heavyBackend)
    refine ⟨⟨Backend.fresh_new _ _ _ _, hv⟩, hs, hb.trans ?_⟩
    rw [addBackend, List.replicate_succ, List.append_assoc]
    rfl

theorem level_heavyPool (n : Nat) :
    Level n (i64System.exec (.new "api" .weighted .default) (heavyPool n)) ∧
      ∀ i, (i64System.exec (.new "api" .weighted .default) (heavyPool n)).credit i = 0 := by
  obtain ⟨_, hs, hb⟩ := heavyPool_spec n (.new "api" .weighted .default)
  generalize i64System.exec (.new "api" .weighted .default) (heavyPool n) = p at hs hb ⊢
  have hb : p.backends = List.replicate n heavyBackend := hb
  have hlen : p.backends.length = n := by rw [hb, List.length_replicate]
  have hin : ∀ i < n, p.backend i = heavyBackend := by
    intro i hi
    exact backend_eq_of_getElem? (by rw [hb, List.getElem?_replicate, if_pos hi])
  refine ⟨⟨hs, ?_, fun i hi => ?_⟩, fun i => ?_⟩
  · ext i
    rw [mem_activeSet, mem_availableIndices, hlen, Finset.mem_range]
    refine ⟨fun h => h.1.1, fun hi => ?_⟩
    rw [hin i hi]
    exact ⟨⟨hi, by simp, by decide⟩, by decide⟩
  · rw [weightedScore, hin i hi]
    rfl
  · rw [credit]
    by_cases hi : i < n
    · rw [hin i hi]
      rfl
    · rw [backend_of_ge (by omega)]
      rfl

/-- Two selections from a new pool of `n` such backends. -/
theorem heavyPool_unfair (n : Nat) (hlo : 2 ^ 63 + 2 * heavyScore < n * heavyScore)
    (hhi : n * heavyScore ≤ 2 ^ 64) :
    let new := Pool.new "api" .weighted .default
    let p := i64System.exec new (heavyPool n)
    let A := Finset.range n
    let W := ∑ _i ∈ A, heavyScore
    i64System.Valid new (heavyPool n ++ twoSelects) ∧
      (∀ i, (p.backend i).currentWeight = 0) ∧
      i64System.Always (SelectsFrom A fun _ => heavyScore) p twoSelects ∧ 0 < W ∧
      weightedPicksI64 p twoSelects = [some 0, some 0] ∧
      ¬ ∀ i ∈ A, (weightedPicksI64 p twoSelects).count (some i) * W <
        (weightedPicksI64 p twoSelects).length * heavyScore + W := by
  intro new p A W
  obtain ⟨hlevel, hzero⟩ := level_heavyPool n
  have hsum : W = n * heavyScore := by
    rw [show W = _ from Finset.sum_const heavyScore, Finset.card_range, nsmul_eq_mul,
      Nat.cast_id]
  have hpos : 0 < n := by
    rcases Nat.eq_zero_or_pos n with rfl | hpos
    · omega
    · exact hpos
  obtain ⟨hsteady, hpicks⟩ := hlevel.picks_twice hzero hlo hhi
  refine ⟨(System.valid_append_iff _ _ _ _).mpr
    ⟨(heavyPool_spec _ _).1, trivial, trivial, trivial⟩, hzero, hsteady, by omega, hpicks,
    fun hshare => ?_⟩
  have hlt : [some 0, some 0].count (some 0) * W < [some 0, some 0].length * heavyScore + W :=
    hpicks ▸ hshare 0 (Finset.mem_range.mpr hpos)
  simp only [List.count_cons_self, List.count_nil, List.length_cons, List.length_nil] at hlt
  omega

/-- With `2 ^ 25` backends of the greatest weight the second selection returns the backend
of the first, which is then more than a full selection ahead of its share. -/
theorem weighted_cycle_wraps :
    let new := Pool.new "api" .weighted .default
    let p := i64System.exec new (heavyPool (2 ^ 25))
    let A := Finset.range (2 ^ 25)
    let W := ∑ _i ∈ A, heavyScore
    i64System.Valid new (heavyPool (2 ^ 25) ++ twoSelects) ∧
      (∀ i, (p.backend i).currentWeight = 0) ∧
      i64System.Always (SelectsFrom A fun _ => heavyScore) p twoSelects ∧ 0 < W ∧
      weightedPicksI64 p twoSelects = [some 0, some 0] ∧
      ¬ ∀ i ∈ A, (weightedPicksI64 p twoSelects).count (some i) * W <
        (weightedPicksI64 p twoSelects).length * heavyScore + W :=
  heavyPool_unfair (2 ^ 25) (by decide) (by decide)

end Pool

end Echofront
