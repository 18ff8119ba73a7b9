import Echofront.Lib.SmoothWrr
import Echofront.Pool.Quarantine

/-!
# Smooth weighted selection

`select_weighted` is smooth weighted round robin over the active backends: those
that are available, not excluded and of positive weight.  The current weights are
the credits and the product of weight and ramp percent is the score.

* `select_weighted_cases` says that a weighted selection is a round in the sense
  of `Lib.SmoothWrr`.
* `churnSystem` adds to the calls of a pool a step that changes anything but the
  configured weights and the current weights.  It stands for every way in which
  availability and ramps can move between two selections.
* `Churned` is the invariant of its runs and `weighted_bounded` the bound that
  follows from it.
* `selectWeightedWithin` is the loop with a check of every intermediate value.
* `cycle_of_steady` is the exact cycle of a constant set of backends.

The sums here are exact.  `Echofront.Pool.WeightedI64` has them on `i64`.
-/

namespace Echofront

open Lib Lib.SmoothWrr

namespace Pool

/-! ## Credits, scores and the active set -/

/-- The current weights as credits. -/
def credit (p : Pool) (i : Nat) : Int := (p.backend i).currentWeight

/-- The sum of the configured weights. -/
def totalWeight (p : Pool) : Nat :=
  ∑ i ∈ Finset.range p.backends.length, (p.backend i).weight

/-- The backends that a weighted selection chooses from. -/
def activeSet (p : Pool) (now : Nat) (exclude : List Nat) : Finset Nat :=
  (p.weightedOf (p.availableIndices now exclude)).toFinset

theorem mem_activeSet {p : Pool} {now : Nat} {exclude : List Nat} {i : Nat} :
    i ∈ p.activeSet now exclude ↔
      i ∈ p.availableIndices now exclude ∧ (p.backend i).weight ≠ 0 := by
  simp [activeSet, weightedOf]

theorem activeSet_subset (p : Pool) (now : Nat) (exclude : List Nat) :
    p.activeSet now exclude ⊆ Finset.range p.backends.length := by
  intro i hi
  exact Finset.mem_range.mpr (mem_availableIndices.mp (mem_activeSet.mp hi).1).1

theorem weightedScore_nonneg (p : Pool) (i : Nat) : 0 ≤ p.weightedScore i :=
  mul_nonneg (by positivity) (by positivity)

/-- The sum over a list without duplicates. -/
theorem scoreSum_eq_total (p : Pool) {is : List Nat} (h : is.Nodup) :
    p.scoreSum is = total is.toFinset p.weightedScore :=
  (List.sum_toFinset p.weightedScore h).symm

/-- A weighted selection is a round that the backend it returns leads.  It
returns nothing only if no backend is active. -/
theorem select_weighted_cases {p : Pool} (hs : p.strategy = .weighted) (now : Nat)
    (key : Option String) (exclude : List Nat) :
    (p.activeSet now exclude = ∅ ∧ p.select now key exclude = (none, p)) ∨
    ∃ b, (p.select now key exclude).1 = some b ∧
      Leads (p.activeSet now exclude) p.weightedScore p.credit b ∧
      (p.select now key exclude).2.credit =
        turn (p.activeSet now exclude) p.weightedScore b p.credit := by
  have hcand : p.candidates now exclude = p.weightedOf (p.availableIndices now exclude) := by
    simp only [candidates, hs]
  cases hb : (p.select now key exclude).1 with
  | none =>
    have hnil := select_eq_none_iff.mp hb
    refine Or.inl ⟨?_, select_of_nil key hnil⟩
    rw [activeSet, ← hcand, hnil]
    rfl
  | some b =>
    have hne : p.availableIndices now exclude ≠ [] := by
      intro h
      simp [select_of_unavailable key h] at hb
    have hsel : p.select now key exclude =
        p.selectWeighted (p.availableIndices now exclude) := by
      rw [select_of_available key hne, hs]
    rw [hsel] at hb ⊢
    obtain ⟨_, hmem, hbeats, hcw⟩ :=
      selectWeighted_some (p.pairwise_availableIndices now exclude) hb
    refine Or.inr ⟨b, rfl, ⟨by simpa [activeSet] using hmem, fun i hi => ?_⟩, ?_⟩
    · exact hbeats i (by simpa [activeSet] using hi)
    · have hnodup : (p.weightedOf (p.availableIndices now exclude)).Nodup :=
        (p.nodup_availableIndices now exclude).filter _
      funext i
      rw [credit, hcw i, scoreSum_eq_total p hnodup]
      simp only [turn, activeSet, List.mem_toFinset, credit]

/-- A selection under another strategy moves no credit. -/
theorem credit_select_of_ne {p : Pool} (hs : p.strategy ≠ .weighted) (now : Nat)
    (key : Option String) (exclude : List Nat) :
    (p.select now key exclude).2.credit = p.credit := by
  by_cases hne : p.availableIndices now exclude = []
  · rw [select_of_unavailable key hne]
  · rw [select_of_available key hne]
    cases h : p.strategy with
    | weighted => exact absurd h hs
    | roundRobin => rfl
    | leastConnections => rfl
    | consistentHash =>
      cases key with
      | none => rfl
      | some key =>
        simp only [selectHash]
        split_ifs <;> rfl

/-! ## What the other calls keep -/

theorem effect_rampPercent_le {p : Pool} {op : Op} {i : Nat} {b : Backend}
    (h : b.rampPercent ≤ 100) : (p.effect op i b).rampPercent ≤ 100 := by
  have hstep := p.effectStep op i b
  generalize p.effect op i b = b' at hstep ⊢
  cases hstep with
  | polled now => exact Backend.poll_rampPercent_le _ _ _ h
  | _ => exact h

/-- `q` has the backends of `p`, with the same weights and credits. -/
structure Keeps (p q : Pool) : Prop where
  length : q.backends.length = p.backends.length
  weight : ∀ i, (q.backend i).weight = (p.backend i).weight
  credit : q.credit = p.credit

/-- Only an addition and a selection touch the weights and the credits. -/
theorem keeps_apply {p : Pool} {op : Op} (hadd : ∀ b, op ≠ .addBackend b)
    (hsel : ∀ now key exclude, op ≠ .select now key exclude) : Keeps p (p.apply op) := by
  have hlen := length_apply_of_ne p hadd
  have hsame : ∀ i, ((p.apply op).backend i).weight = (p.backend i).weight ∧
      ((p.apply op).backend i).currentWeight = (p.backend i).currentWeight := by
    intro i
    by_cases hi : i < p.backends.length
    · rw [backend_apply_of_lt hi]
      obtain ⟨_, hweight, hcurrent⟩ := p.effect_fixed op i (p.backend i)
      exact ⟨hweight, hcurrent hsel⟩
    · have hge := Nat.le_of_not_lt hi
      rw [backend_of_ge hge, backend_of_ge (by rw [hlen]; exact hge)]
      exact ⟨rfl, rfl⟩
  exact ⟨hlen, fun i => (hsame i).1, funext (fun i => (hsame i).2)⟩

/-! ## Churn -/

end Pool

/-- A step of a pool under churn: a call, or a change of anything but the
configured weights and the current weights of the backends. -/
inductive Churn where
  | call (op : Op)
  | change (q : Pool)

namespace Pool

def churn (p : Pool) : Churn → Pool
  | .call op => p.apply op
  | .change q => q

end Pool

/-- The pool under churn. -/
def churnSystem : System Pool Churn where
  init p := ∃ name strategy health, p = .new name strategy health
  ok p
    | .call op => p.Accepts op
    | .change q => p.Keeps q
  step := Pool.churn

/-- The ramps that a change sets are percents. -/
def Churn.RampsOk : Churn → Prop
  | .call _ => True
  | .change q => ∀ i, (q.backend i).rampPercent ≤ 100

namespace Pool

/-- A run of calls is a run under churn. -/
theorem valid_churn_of_valid {p : Pool} {ops : List Op} (h : poolSystem.Valid p ops) :
    churnSystem.Valid p (ops.map .call) ∧
      churnSystem.exec p (ops.map .call) = poolSystem.exec p ops := by
  induction ops generalizing p with
  | nil => exact ⟨trivial, rfl⟩
  | cons op ops ih =>
    obtain ⟨hv, he⟩ := ih h.2
    exact ⟨⟨h.1, hv⟩, he⟩

/-- The three kinds of steps under churn. -/
theorem churn_cases {p : Pool} {a : Churn} (hok : churnSystem.ok p a) :
    (∃ b, a = .call (.addBackend b) ∧ b.Fresh) ∨
    (∃ now key exclude, a = .call (.select now key exclude)) ∨
    (Keeps p (p.churn a) ∧ ∀ now key exclude, a ≠ .call (.select now key exclude)) := by
  cases a with
  | change q => exact Or.inr (Or.inr ⟨hok, by simp⟩)
  | call op =>
    cases op with
    | addBackend b => exact Or.inl ⟨b, rfl, hok⟩
    | select now key exclude => exact Or.inr (Or.inl ⟨now, key, exclude, rfl⟩)
    | _ =>
      refine Or.inr (Or.inr ⟨?_, by simp⟩)
      rw [churn]
      exact keeps_apply (by simp) (by simp)

theorem Keeps.totalWeight {p q : Pool} (h : Keeps p q) : q.totalWeight = p.totalWeight := by
  unfold Pool.totalWeight
  rw [h.length]
  exact Finset.sum_congr rfl (fun i _ => h.weight i)

/-- What an addition adds. -/
theorem addBackend_spec {p : Pool} {b : Backend} (hb : b.Fresh) :
    (p.addBackend b).credit = p.credit ∧
    (p.addBackend b).backends.length = p.backends.length + 1 ∧
    (p.addBackend b).totalWeight = p.totalWeight + b.weight := by
  have hold : ∀ i < p.backends.length, (p.addBackend b).backend i = p.backend i :=
    fun i hi => backend_apply_of_lt hi (.addBackend b)
  have hnew : (p.addBackend b).backend p.backends.length = b := by
    simp [addBackend, backend]
  have hlen : (p.addBackend b).backends.length = p.backends.length + 1 := by
    simp [addBackend]
  refine ⟨funext (fun i => ?_), hlen, ?_⟩
  · rcases Nat.lt_trichotomy i p.backends.length with hi | rfl | hi
    · rw [credit, hold i hi]
      rfl
    · obtain ⟨health, cfg, heq⟩ := hb
      rw [credit, hnew, credit, backend_of_ge (Nat.le_refl _), heq]
      rfl
    · rw [credit, credit, backend_of_ge (by rw [hlen]; exact hi),
        backend_of_ge (Nat.le_of_lt hi)]
  · rw [totalWeight, hlen, Finset.sum_range_succ, hnew, totalWeight]
    congr 1
    exact Finset.sum_congr rfl (fun i hi => by rw [hold i (Finset.mem_range.mp hi)])

/-- A selection keeps the weights, and its frame the rest. -/
theorem SelectFrame.totalWeight {p q : Pool} (h : SelectFrame p q) :
    q.totalWeight = p.totalWeight := by
  unfold Pool.totalWeight
  rw [h.length]
  exact Finset.sum_congr rfl (fun i _ => h.weight i)

/-- The invariant of a pool under churn. -/
structure Churned (p : Pool) : Prop where
  balanced : Balanced (Finset.range p.backends.length) (100 * p.totalWeight) p.credit
  ramp : ∀ i, (p.backend i).rampPercent ≤ 100

theorem weightedScore_le {p : Pool} (h : ∀ i, (p.backend i).rampPercent ≤ 100) (i : Nat) :
    p.weightedScore i ≤ 100 * (p.backend i).weight := by
  have hr : ((p.backend i).rampPercent : Int) ≤ 100 := by exact_mod_cast h i
  have hw : (0 : Int) ≤ (p.backend i).weight := by positivity
  unfold weightedScore
  nlinarith

/-- The scores of any set of backends sum to at most 100 times the weights. -/
theorem total_le {p : Pool} (h : ∀ i, (p.backend i).rampPercent ≤ 100) {A : Finset Nat}
    (hA : A ⊆ Finset.range p.backends.length) :
    total A p.weightedScore ≤ 100 * p.totalWeight := by
  calc total A p.weightedScore
      ≤ ∑ i ∈ Finset.range p.backends.length, p.weightedScore i :=
        Finset.sum_le_sum_of_subset_of_nonneg hA (fun i _ _ => p.weightedScore_nonneg i)
    _ ≤ ∑ i ∈ Finset.range p.backends.length, 100 * ((p.backend i).weight : Int) :=
        Finset.sum_le_sum (fun i _ => weightedScore_le h i)
    _ = 100 * p.totalWeight := by
        rw [← Finset.mul_sum, totalWeight]
        push_cast
        rfl

theorem churned_new (name : String) (strategy : Strategy) (health : HealthConfig) :
    Churned (.new name strategy health) :=
  ⟨Balanced.of_zero (by positivity) (fun _ => rfl), fun _ => Nat.le_refl 100⟩

theorem Churned.keeps {p q : Pool} (h : Churned p) (hk : Keeps p q)
    (hr : ∀ i, (q.backend i).rampPercent ≤ 100) : Churned q := by
  refine ⟨?_, hr⟩
  rw [hk.length, hk.totalWeight, hk.credit]
  exact h.balanced

theorem ramp_apply {p : Pool} (h : ∀ i, (p.backend i).rampPercent ≤ 100) (op : Op)
    (hok : p.Accepts op) (i : Nat) : ((p.apply op).backend i).rampPercent ≤ 100 := by
  rcases backend_apply_cases hok i with ⟨_, heq⟩ | ⟨_, health, cfg, heq⟩
  · rw [heq]
    exact effect_rampPercent_le (h i)
  · rw [heq]
    exact Nat.le_refl 100

/-- An addition grows the bound and the members. -/
theorem Churned.addBackend {p : Pool} (h : Churned p) {b : Backend} (hb : b.Fresh) :
    Churned (p.addBackend b) := by
  obtain ⟨hcredit, hlen, hweight⟩ := addBackend_spec hb (p := p)
  have hzero : p.credit p.backends.length = 0 := by
    rw [credit, backend_of_ge (Nat.le_refl _)]
    rfl
  have hgrow : (100 * p.totalWeight : Int) ≤ 100 * (p.addBackend b).totalWeight := by
    rw [hweight]
    push_cast
    omega
  refine ⟨?_, ramp_apply h.ramp (.addBackend b) hb⟩
  rw [hcredit, hlen, Finset.range_add_one]
  exact h.balanced.join Finset.notMem_range_self hzero (by positivity) hgrow

/-- A selection is a round, or moves no credit. -/
theorem Churned.select {p : Pool} (h : Churned p) (now : Nat) (key : Option String)
    (exclude : List Nat) : Churned (p.select now key exclude).2 := by
  have hf := p.selectFrame_select now key exclude
  refine ⟨?_, ramp_apply h.ramp (.select now key exclude) trivial⟩
  rw [hf.length, hf.totalWeight]
  by_cases hs : p.strategy = .weighted
  · rcases select_weighted_cases hs now key exclude with ⟨_, heq⟩ | ⟨b, _, hlead, hcredit⟩
    · rw [heq]
      exact h.balanced
    · have hsub := p.activeSet_subset now exclude
      rw [hcredit]
      exact h.balanced.round hsub (fun i _ => p.weightedScore_nonneg i) (total_le h.ramp hsub)
        hlead
  · rw [credit_select_of_ne hs]
    exact h.balanced

theorem ramp_churn {p : Pool} (h : ∀ i, (p.backend i).rampPercent ≤ 100) {a : Churn}
    (hok : churnSystem.ok p a) (hr : a.RampsOk) (i : Nat) :
    ((p.churn a).backend i).rampPercent ≤ 100 := by
  cases a with
  | change q => exact hr i
  | call op => exact ramp_apply h op hok i

/-- The step lemma of churn. -/
theorem churned_churn {p : Pool} (h : Churned p) {a : Churn} (hok : churnSystem.ok p a)
    (hr : a.RampsOk) : Churned (p.churn a) := by
  rcases churn_cases hok with ⟨b, rfl, hb⟩ | ⟨now, key, exclude, rfl⟩ | ⟨hk, _⟩
  · exact h.addBackend hb
  · exact h.select now key exclude
  · exact h.keeps hk (ramp_churn h.ramp hok hr)

/-- The run lemma of churn. -/
theorem churned_exec {p : Pool} (h : Churned p) {as : List Churn}
    (hv : churnSystem.Valid p as) (hr : ∀ a ∈ as, a.RampsOk) :
    Churned (churnSystem.exec p as) :=
  System.preserved (M := churnSystem) (P := Churned) (Q := Churn.RampsOk)
    (fun _ _ hp hok hq => churned_churn hp hok hq) h hv hr

/-- Nothing removes a backend or lowers a weight. -/
theorem grows_exec {p : Pool} {as : List Churn} (hv : churnSystem.Valid p as) :
    p.backends.length ≤ (churnSystem.exec p as).backends.length ∧
      p.totalWeight ≤ (churnSystem.exec p as).totalWeight := by
  refine System.Valid.invariant (M := churnSystem)
    (I := fun q => p.backends.length ≤ q.backends.length ∧ p.totalWeight ≤ q.totalWeight)
    ?_ ⟨Nat.le_refl _, Nat.le_refl _⟩ hv
  intro q a hq hok
  obtain ⟨hlen, hweight⟩ := hq
  show p.backends.length ≤ (q.churn a).backends.length ∧
    p.totalWeight ≤ (q.churn a).totalWeight
  rcases churn_cases hok with ⟨b, rfl, hb⟩ | ⟨now, key, exclude, rfl⟩ | ⟨hk, _⟩
  · obtain ⟨_, hl, hw⟩ := addBackend_spec (p := q) hb
    rw [churn, apply, hl, hw]
    omega
  · have hf := q.selectFrame_select now key exclude
    rw [churn, apply, hf.length, hf.totalWeight]
    exact ⟨hlen, hweight⟩
  · rw [hk.length, hk.totalWeight]
    exact ⟨hlen, hweight⟩

/-! ## Intermediate values -/

/-- Every value that a turn of the loop computes is in `[-B, B]`: the score, the
running total and the new weight. -/
def VisitWithin (B : Int) (s : WeightedLoop) (i : Nat) : Prop :=
  (s.pool.backend i).weight = 0 ∨
    (|s.pool.weightedScore i| ≤ B ∧ |s.total + s.pool.weightedScore i| ≤ B ∧
      |(s.pool.backend i).currentWeight + s.pool.weightedScore i| ≤ B)

instance (B : Int) (s : WeightedLoop) (i : Nat) : Decidable (VisitWithin B s i) :=
  inferInstanceAs (Decidable (_ ∨ _))

/-- The loop of `select_weighted`, stopped at the first value outside
`[-B, B]`. -/
def loopWithin (B : Int) (s : WeightedLoop) : List Nat → Option WeightedLoop
  | [] => some s
  | i :: is => if VisitWithin B s i then loopWithin B (s.visit i) is else none

/-- `select_weighted` with a check of every value it computes. -/
def selectWeightedWithin (B : Int) (p : Pool) (available : List Nat) :
    Option (Option Nat × Pool) :=
  match loopWithin B ⟨none, 0, p⟩ available with
  | none => none
  | some s =>
    match s.best with
    | none => some (none, s.pool)
    | some b =>
      if |(s.pool.backend b).currentWeight - s.total| ≤ B then
        some (some b, s.pool.addWeight b (-s.total))
      else none

/-- The loop passes its checks if every turn of the plain loop does. -/
theorem loopWithin_eq {B : Int} {s : WeightedLoop} {is : List Nat}
    (h : ∀ vs i ws, is = vs ++ i :: ws → VisitWithin B (vs.foldl WeightedLoop.visit s) i) :
    loopWithin B s is = some (is.foldl WeightedLoop.visit s) := by
  induction is generalizing s with
  | nil => rfl
  | cons i is ih =>
    have hfirst : VisitWithin B s i := h [] i is rfl
    rw [loopWithin, if_pos hfirst]
    exact ih (fun vs j ws he => h (i :: vs) j ws (by rw [he]; rfl))

/-- What bounds the values of a weighted selection: `C` bounds the credits and
`S` the sum of the scores of any of the listed backends. -/
structure SelectionBounds (p : Pool) (available : List Nat) (C S : Int) : Prop where
  credit : ∀ i ∈ available, |p.credit i| ≤ C
  scores : ∀ A ⊆ available.toFinset, total A p.weightedScore ≤ S

/-- A turn of the loop on an ascending list stays within the bounds. -/
theorem SelectionBounds.visitWithin {p : Pool} {available : List Nat} {C S : Int}
    (h : SelectionBounds p available C S) (hlt : available.Pairwise (· < ·))
    {vs ws : List Nat} {i : Nat} (heq : available = vs ++ i :: ws) {B : Int}
    (hB : C + S ≤ B) : VisitWithin B (vs.foldl WeightedLoop.visit ⟨none, 0, p⟩) i := by
  have hsplit : available = (vs ++ [i]) ++ ws := by rw [heq]; simp
  have hlt' : (vs ++ [i]).Pairwise (· < ·) := by
    rw [hsplit] at hlt
    exact (List.pairwise_append.mp hlt).1
  obtain ⟨hvs, _, hi⟩ := List.pairwise_append.mp hlt'
  have hv := visited p hvs
  generalize vs.foldl WeightedLoop.visit ⟨none, 0, p⟩ = s at hv ⊢
  by_cases hw : (p.backend i).weight = 0
  · exact Or.inl (by rw [hv.frame.weight, hw])
  have hmem : i ∈ available := by rw [heq]; simp
  have hnot : i ∉ p.weightedOf vs :=
    fun hm => Nat.lt_irrefl i (hi i (List.mem_of_mem_filter hm) i (by simp))
  have hnodup : (p.weightedOf vs).Nodup :=
    (hvs.imp (fun hab => Nat.ne_of_lt hab)).filter _
  have hsub : (p.weightedOf vs).toFinset ⊆ available.toFinset := by
    intro j hj
    rw [List.mem_toFinset] at hj ⊢
    rw [heq]
    exact List.mem_append_left _ (List.mem_of_mem_filter hj)
  -- The score, the running total and the new weight, in the terms of `p`.
  have hC := abs_le.mp (h.credit i hmem)
  have hnonneg := p.weightedScore_nonneg i
  have hone := h.scores {i} (by simpa using hmem)
  have hsum := h.scores (insert i (p.weightedOf vs).toFinset)
    (Finset.insert_subset (by simpa using hmem) hsub)
  have hbefore : 0 ≤ total (p.weightedOf vs).toFinset p.weightedScore :=
    Finset.sum_nonneg (fun j _ => p.weightedScore_nonneg j)
  rw [total, Finset.sum_singleton] at hone
  rw [total, Finset.sum_insert (by simpa using hnot)] at hsum
  unfold total at hbefore
  have hcur := hv.current i
  rw [if_neg hnot, add_zero] at hcur
  refine Or.inr ⟨?_, ?_, ?_⟩
  · rw [hv.frame.weightedScore, abs_le]
    constructor <;> linarith
  · rw [hv.frame.weightedScore, hv.total, scoreSum_eq_total p hnodup, total, abs_le]
    constructor <;> linarith
  · unfold Pool.credit at hC
    rw [hv.frame.weightedScore, hcur, abs_le]
    constructor <;> linarith

/-- Within the bounds the checked selection is the plain one. -/
theorem SelectionBounds.selectWeightedWithin_eq {p : Pool} {available : List Nat}
    {C S : Int} (h : SelectionBounds p available C S) (hlt : available.Pairwise (· < ·))
    {B : Int} (hB : C + S ≤ B)
    (hafter : ∀ i, |(p.selectWeighted available).2.credit i| ≤ B) :
    p.selectWeightedWithin B available = some (p.selectWeighted available) := by
  have hloop : loopWithin B ⟨none, 0, p⟩ available =
      some (available.foldl WeightedLoop.visit ⟨none, 0, p⟩) :=
    loopWithin_eq (fun vs i ws heq => h.visitWithin hlt heq hB)
  have hv := visited p hlt
  unfold selectWeighted at hafter ⊢
  rw [selectWeightedWithin, hloop]
  generalize available.foldl WeightedLoop.visit ⟨none, 0, p⟩ = s at hv hafter ⊢
  cases hb : s.best with
  | none => simp [hb]
  | some b =>
    have hlen : b < s.pool.backends.length := by
      rw [hv.frame.length]
      obtain ⟨hmem, _⟩ := hv.best_some b hb
      exact lt_length_of_weight (by simpa [weightedOf] using (List.mem_filter.mp hmem).2)
    simp only [hb] at hafter ⊢
    have hle : |((s.pool.addWeight b (-s.total)).backend b).currentWeight| ≤ B := hafter b
    rw [currentWeight_addWeight hlen, if_pos rfl, ← sub_eq_add_neg] at hle
    rw [if_pos hle]

/-- Under the weighted strategy a selection is `select_weighted`. -/
theorem selectWeighted_eq_select {p : Pool} (hs : p.strategy = .weighted) (now : Nat)
    (key : Option String) (exclude : List Nat) :
    p.selectWeighted (p.availableIndices now exclude) = p.select now key exclude := by
  by_cases hne : p.availableIndices now exclude = []
  · rw [select_of_unavailable key hne, hne]
    rfl
  · rw [select_of_available key hne, hs]

/-- The bound on one credit, for any bounds on the members and the weights. -/
theorem Churned.abs_credit_le {p : Pool} (h : Churned p) {n M : Nat}
    (hn : p.backends.length ≤ n) (hM : p.totalWeight ≤ M) (h1 : 1 ≤ n) (i : Nat) :
    |p.credit i| ≤ 100 * M * (n - 1) := by
  have hn' : (p.backends.length : Int) ≤ n := by exact_mod_cast hn
  have hM' : (p.totalWeight : Int) ≤ M := by exact_mod_cast hM
  have h1' : (1 : Int) ≤ n := by exact_mod_cast h1
  by_cases hi : i < p.backends.length
  · have hle := h.balanced.abs_credit_le (Finset.mem_range.mpr hi)
    have hpos : (1 : Int) ≤ p.backends.length := by
      exact_mod_cast Nat.lt_of_le_of_lt (Nat.zero_le i) hi
    rw [Finset.card_range] at hle
    refine le_trans hle (mul_le_mul ?_ ?_ ?_ ?_) <;> omega
  · have hzero : p.credit i = 0 := by
      rw [credit, backend_of_ge (Nat.le_of_not_lt hi)]
      rfl
    rw [hzero, abs_zero]
    exact mul_nonneg (by positivity) (by omega)

/-- No value of a weighted selection passes `100 * M * n`. -/
theorem Churned.selectWeightedWithin_eq {p : Pool} (h : Churned p)
    (hs : p.strategy = .weighted) {n M : Nat} (hn : p.backends.length ≤ n)
    (hM : p.totalWeight ≤ M) (h1 : 1 ≤ n) (now : Nat) (exclude : List Nat) {B : Int}
    (hB : 100 * M * n ≤ B) :
    p.selectWeightedWithin B (p.availableIndices now exclude) =
      some (p.selectWeighted (p.availableIndices now exclude)) := by
  have hM' : (p.totalWeight : Int) ≤ M := by exact_mod_cast hM
  have hbounds : SelectionBounds p (p.availableIndices now exclude)
      (100 * M * (n - 1)) (100 * M) := by
    refine ⟨fun i _ => h.abs_credit_le hn hM h1 i, fun A hA => ?_⟩
    have hsub : A ⊆ Finset.range p.backends.length := fun i hi =>
      Finset.mem_range.mpr (mem_availableIndices.mp (List.mem_toFinset.mp (hA hi))).1
    have hle := total_le h.ramp hsub
    omega
  have hsum : (100 * M * (n - 1) + 100 * M : Int) ≤ B := by linarith
  refine hbounds.selectWeightedWithin_eq (p.pairwise_availableIndices now exclude) hsum ?_
  rw [selectWeighted_eq_select hs now none]
  intro i
  have hf := p.selectFrame_select now none exclude
  have hle : |(p.select now none exclude).2.credit i| ≤ 100 * M * (n - 1) :=
    (h.select now none exclude).abs_credit_le (Nat.le_trans (Nat.le_of_eq hf.length) hn)
      (Nat.le_trans (Nat.le_of_eq hf.totalWeight) hM) h1 i
  have hM0 : (0 : Int) ≤ 100 * M := by positivity
  linarith

/-! ## Picks of a steady run -/

/-- What a weighted selection returns. -/
def weightedPick (p : Pool) : Churn → Option (Option Nat)
  | .call (.select now key exclude) =>
    if p.strategy = .weighted then some (p.select now key exclude).1 else none
  | _ => none

/-- What the weighted selections of a run return. -/
def weightedPicks (p : Pool) (as : List Churn) : List (Option Nat) :=
  churnSystem.events weightedPick p as

/-- If the step is a weighted selection, it chooses from the backends `A` with
the scores `s`. -/
def SelectsFrom (A : Finset Nat) (s : Nat → Nat) (p : Pool) : Churn → Prop
  | .call (.select now _ exclude) => p.strategy = .weighted →
    p.activeSet now exclude = A ∧ ∀ i ∈ A, p.weightedScore i = s i
  | _ => True

theorem weightedPick_eq_none {p : Pool} {a : Churn}
    (h : ∀ now key exclude, a ≠ .call (.select now key exclude)) :
    weightedPick p a = none := by
  cases a with
  | change q => rfl
  | call op =>
    cases op with
    | select now key exclude => exact absurd rfl (h now key exclude)
    | _ => rfl

/-- The weighted selections of a steady run are rounds with one active set and
constant scores. -/
theorem rounds_of_steady {A : Finset Nat} (hA : A.Nonempty) {s : Nat → Nat} {p : Pool}
    {as : List Churn} (hv : churnSystem.Valid p as)
    (hsteady : churnSystem.Always (SelectsFrom A s) p as) :
    ∃ js, weightedPicks p as = js.map some ∧
      Rounds A (fun i => (s i : Int)) p.credit js (churnSystem.exec p as).credit := by
  induction as generalizing p with
  | nil => exact ⟨[], rfl, .nil _⟩
  | cons a as ih =>
    obtain ⟨js, hpicks, hrounds⟩ := ih hv.2 hsteady.2
    change Rounds A _ (p.churn a).credit js _ at hrounds
    have hcons : weightedPicks p (a :: as) =
        (weightedPick p a).toList ++ js.map some := by
      rw [← hpicks]
      rfl
    -- A step that picks nothing moves no credit.
    have hquiet : weightedPick p a = none → (p.churn a).credit = p.credit →
        ∃ js, weightedPicks p (a :: as) = js.map some ∧
          Rounds A (fun i => (s i : Int)) p.credit js
            (churnSystem.exec p (a :: as)).credit := by
      intro hnone hcredit
      exact ⟨js, by rw [hcons, hnone]; rfl, hcredit ▸ hrounds⟩
    rcases churn_cases hv.1 with ⟨b, rfl, hb⟩ | ⟨now, key, exclude, rfl⟩ | ⟨hk, hne⟩
    · exact hquiet rfl (addBackend_spec hb).1
    · by_cases hs : p.strategy = .weighted
      · obtain ⟨hactive, hscore⟩ := hsteady.1 hs
        rcases select_weighted_cases hs now key exclude with
          ⟨hempty, _⟩ | ⟨b, hb, hlead, hcredit⟩
        · exact absurd (hactive.symm.trans hempty) hA.ne_empty
        · rw [hactive] at hlead hcredit
          rw [turn_congr hscore] at hcredit
          refine ⟨b :: js, ?_, .cons (hlead.congr hscore) ?_⟩
          · rw [hcons, weightedPick, if_pos hs, hb]
            rfl
          · rw [← hcredit]
            exact hrounds
      · exact hquiet (by rw [weightedPick, if_neg hs]) (credit_select_of_ne hs now key exclude)
    · exact hquiet (weightedPick_eq_none hne) hk.credit

theorem count_map_some (js : List Nat) (i : Nat) : (js.map some).count (some i) = js.count i :=
  List.count_map_of_injective js some (Option.some_injective Nat) i

/-- The share of a backend over a steady run, from the credits at its ends. -/
theorem share_of_steady {A : Finset Nat} {s : Nat → Nat} {p : Pool} {as : List Churn}
    (hv : churnSystem.Valid p as) (hsteady : churnSystem.Always (SelectsFrom A s) p as)
    {i : Nat} (hi : i ∈ A) :
    ((weightedPicks p as).count (some i) : Int) * ∑ j ∈ A, (s j : Int) -
        (weightedPicks p as).length * s i =
      p.credit i - (churnSystem.exec p as).credit i := by
  obtain ⟨js, hpicks, hrounds⟩ := rounds_of_steady ⟨i, hi⟩ hv hsteady
  rw [hpicks, count_map_some, List.length_map, hrounds.credit_eq i, if_pos hi, total]
  ring

theorem weight_churn {p : Pool} {a : Churn} (hok : churnSystem.ok p a) {i : Nat}
    (hi : i < p.backends.length) :
    i < (p.churn a).backends.length ∧
      ((p.churn a).backend i).weight = (p.backend i).weight := by
  rcases churn_cases hok with ⟨b, rfl, hb⟩ | ⟨now, key, exclude, rfl⟩ | ⟨hk, _⟩
  · refine ⟨?_, by rw [churn, backend_apply_of_lt hi, (p.effect_fixed _ i _).2.1]⟩
    rw [churn, apply, (addBackend_spec hb).2.1]
    exact Nat.lt_succ_of_lt hi
  · have hf := p.selectFrame_select now key exclude
    rw [churn, apply, hf.length, hf.weight]
    exact ⟨hi, rfl⟩
  · rw [hk.length, hk.weight]
    exact ⟨hi, rfl⟩

/-- A backend of weight zero is never picked. -/
theorem weight_ne_zero_of_pick {p : Pool} {as : List Churn} (hv : churnSystem.Valid p as)
    {i : Nat} (hi : i < p.backends.length) (hpick : some i ∈ weightedPicks p as) :
    (p.backend i).weight ≠ 0 := by
  induction as generalizing p with
  | nil => simp [weightedPicks, System.events] at hpick
  | cons a as ih =>
    obtain ⟨hlt, hweight⟩ := weight_churn hv.1 hi
    rcases List.mem_append.mp hpick with hnow | hlater
    · rcases churn_cases hv.1 with ⟨b, rfl, _⟩ | ⟨now, key, exclude, rfl⟩ | ⟨_, hne⟩
      · simp [weightedPick] at hnow
      · rw [weightedPick] at hnow
        split_ifs at hnow with hs
        · have hsel : some i = (p.select now key exclude).1 := by simpa using hnow
          rcases select_weighted_cases hs now key exclude with ⟨_, heq⟩ | ⟨b, hb, hlead, _⟩
          · simp [heq] at hsel
          · obtain rfl := Option.some.inj (hsel.trans hb)
            exact (mem_activeSet.mp hlead.mem).2
        · simp at hnow
      · simp [weightedPick_eq_none hne] at hnow
    · rw [← hweight]
      exact ih hv.2 hlt hlater

/-- The greatest common divisor of the positive scores divides all of them. -/
theorem gcd_dvd_scores {A : Finset Nat} {s : Nat → Nat} {i : Nat} (hi : i ∈ A) :
    (A.filter (fun i => 0 < s i)).gcd s ∣ s i := by
  rcases Nat.eq_zero_or_pos (s i) with h0 | hpos
  · rw [h0]
    exact dvd_zero _
  · exact Finset.gcd_dvd (Finset.mem_filter.mpr ⟨hi, hpos⟩)

/-- The cycle of rounds with natural scores: after `k` periods the shares are
exact and the credits are zero. -/
theorem cycle_of_rounds {A : Finset Nat} {s : Nat → Nat} {c d : Nat → Int} {js : List Nat}
    (h : Rounds A (fun i => (s i : Int)) c js d) (hc : ∀ i, c i = 0)
    (hW : 0 < ∑ i ∈ A, s i) {g k : Nat} (hg : ∀ i ∈ A, g ∣ s i)
    (hlen : js.length = k * ((∑ i ∈ A, s i) / g)) :
    (∀ i ∈ A, js.count i = k * (s i / g)) ∧ ∀ i, d i = 0 := by
  have htotal := total_natCast A s
  have hgW : g ∣ ∑ i ∈ A, s i := Finset.dvd_sum hg
  have hg0 : 0 < g := Nat.pos_of_dvd_of_pos hgW hW
  have hperiod : (js.length : Int) * g = k * total A (fun i => (s i : Int)) := by
    rw [htotal, hlen]
    norm_cast
    rw [Nat.mul_assoc, Nat.div_mul_cancel hgW]
  obtain ⟨hcount, hd⟩ := h.cycle (fun i _ => by positivity)
    (total_natCast_pos hW) hc (fun i hi => Int.natCast_dvd_natCast.mpr (hg i hi))
    hperiod
  refine ⟨fun i hi => ?_, hd⟩
  have heq : js.count i * g = k * s i := by exact_mod_cast hcount i hi
  apply Nat.eq_of_mul_eq_mul_right hg0
  rw [heq, Nat.mul_assoc, Nat.div_mul_cancel (hg i hi)]

/-! ## The contracts -/

/-- Weighted selection stays bounded under any churn.  Let a run from a new pool
end with `n` backends whose weights sum to `M`.  After every prefix of the run

* the current weights sum to zero and none passes `100 * M * (n - 1)`,
* no value of a weighted selection passes `100 * M * n`, so none overflows while
  that is below `2 ^ 63`,
* and over every segment in which the active set and the scores do not change,
  each backend is picked in proportion, up to `200 * M * (n - 1)`. -/
theorem weighted_bounded {p₀ : Pool} (h₀ : churnSystem.init p₀) {ops : List Churn}
    (hv : churnSystem.Valid p₀ ops) (hr : ∀ a ∈ ops, a.RampsOk)
    (h1 : 1 ≤ (churnSystem.exec p₀ ops).backends.length) :
    let n : Int := (churnSystem.exec p₀ ops).backends.length
    let M : Int := (churnSystem.exec p₀ ops).totalWeight
    ∀ pre post, ops = pre ++ post →
      let p := churnSystem.exec p₀ pre
      (∑ i ∈ Finset.range p.backends.length, (p.backend i).currentWeight = 0) ∧
      (∀ i < p.backends.length, |(p.backend i).currentWeight| ≤ 100 * M * (n - 1)) ∧
      (p.strategy = .weighted → ∀ now exclude,
        let available := p.availableIndices now exclude
        p.selectWeightedWithin (100 * M * n) available =
            some (p.selectWeighted available) ∧
          (100 * M * n < 2 ^ 63 →
            p.selectWeightedWithin i64Max available = some (p.selectWeighted available))) ∧
      ∀ mid rest A s, post = mid ++ rest → churnSystem.Always (SelectsFrom A s) p mid →
        ∀ i ∈ A,
          |((weightedPicks p mid).count (some i) : Int) * ∑ j ∈ A, (s j : Int) -
            (weightedPicks p mid).length * s i| ≤ 200 * M * (n - 1) := by
  intro n M pre post heq p
  subst heq
  have hnew : Churned p₀ := by
    obtain ⟨name, strategy, health, rfl⟩ := h₀
    exact churned_new name strategy health
  have hchurned : ∀ mid rest, post = mid ++ rest →
      Churned (churnSystem.exec p mid) ∧
        (churnSystem.exec p mid).backends.length ≤
          (churnSystem.exec p₀ (pre ++ post)).backends.length ∧
        (churnSystem.exec p mid).totalWeight ≤
          (churnSystem.exec p₀ (pre ++ post)).totalWeight := by
    intro mid rest hpost
    subst hpost
    rw [← List.append_assoc] at hv hr ⊢
    have hgrow := grows_exec hv.right
    rw [← System.exec_append] at hgrow
    rw [← System.exec_append]
    exact ⟨churned_exec hnew hv.left (fun a ha => hr a (List.mem_append_left _ ha)), hgrow⟩
  obtain ⟨hp, hn, hM⟩ := hchurned [] post rfl
  change Churned p at hp
  refine ⟨hp.balanced.zero, fun i _ => hp.abs_credit_le hn hM h1 i, ?_, ?_⟩
  · intro hs now exclude available
    refine ⟨hp.selectWeightedWithin_eq hs hn hM h1 now exclude (le_refl _), fun hlt => ?_⟩
    exact hp.selectWeightedWithin_eq hs hn hM h1 now exclude (Int.le_sub_one_of_lt hlt)
  · intro mid rest A s hpost hsteady i hi
    obtain ⟨hq, hn', hM'⟩ := hchurned mid rest hpost
    have hmid : churnSystem.Valid p mid := by
      rw [hpost] at hv
      exact hv.right.left
    have hstart := abs_le.mp (hp.abs_credit_le hn hM h1 i)
    have hend := abs_le.mp (hq.abs_credit_le hn' hM' h1 i)
    rw [share_of_steady hmid hsteady hi, abs_le]
    constructor <;> linarith

/-- Two backends of weights 1 and 2 join a new pool. -/
def twoWeighted : List Churn :=
  [.call (.addBackend (.new "a" 1 .default .default)),
    .call (.addBackend (.new "b" 2 .default .default))]

/-- Three weighted selections. -/
def threeSelects : List Churn := List.replicate 3 (.call (.select 0 none []))

theorem valid_twoWeighted :
    churnSystem.Valid (Pool.new "api" .weighted .default) twoWeighted :=
  ⟨Backend.fresh_new _ _ _ _, Backend.fresh_new _ _ _ _, trivial⟩

/-- With the weights 1 and 2 no current weight passes 300. -/
theorem weighted_bounded_two :
    |((churnSystem.exec (Pool.new "api" .weighted .default)
      (twoWeighted ++ threeSelects)).backend 1).currentWeight| ≤ 300 := by
  have hv : churnSystem.Valid (Pool.new "api" .weighted .default)
      (twoWeighted ++ threeSelects) :=
    (System.valid_append_iff _ _ _ _).mpr ⟨valid_twoWeighted, trivial, trivial, trivial, trivial⟩
  have hr : ∀ a ∈ twoWeighted ++ threeSelects, a.RampsOk := by
    simp [twoWeighted, threeSelects, Churn.RampsOk]
  exact (weighted_bounded ⟨_, _, _, rfl⟩ hv hr (by decide) (twoWeighted ++ threeSelects) []
    (List.append_nil _).symm).2.1 1 (by decide)

/-- Weighted selection is exact.  Let the current weights be zero and let the
active set `A` and the scores `s` not change, with a positive sum `W`.

* No backend is ever a full selection ahead of its share, and no backend outside
  the active set is picked, in particular none of weight zero.
* With `g` the greatest common divisor of the positive scores, after every `k`
  periods of `W / g` selections each backend has been picked exactly
  `k * (s i / g)` times and all current weights are zero.
* The picks repeat with the period `W / g`. -/
theorem cycle_of_steady {p : Pool} (hzero : ∀ i, (p.backend i).currentWeight = 0)
    {as : List Churn} (hv : churnSystem.Valid p as) {A : Finset Nat} {s : Nat → Nat}
    (hsteady : churnSystem.Always (SelectsFrom A s) p as) (hW : 0 < ∑ i ∈ A, s i) :
    let W := ∑ i ∈ A, s i
    let g := (A.filter (fun i => 0 < s i)).gcd s
    let picks := weightedPicks p as
    (∀ i ∈ A, picks.count (some i) * W < picks.length * s i + W) ∧
    (∀ i, some i ∈ picks → i ∈ A) ∧
    (∀ i < p.backends.length, (p.backend i).weight = 0 → some i ∉ picks) ∧
    (∀ k, picks.length = k * (W / g) →
      (∀ i ∈ A, picks.count (some i) = k * (s i / g)) ∧
        ∀ i, ((churnSystem.exec p as).backend i).currentWeight = 0) ∧
    ∀ k, k + W / g < picks.length → picks[k + W / g]? = picks[k]? := by
  intro W g picks
  have hA : A.Nonempty := by
    by_contra hempty
    simp [Finset.not_nonempty_iff_eq_empty.mp hempty] at hW
  obtain ⟨js, hpicks, hrounds⟩ := rounds_of_steady hA hv hsteady
  have hg : ∀ i ∈ A, g ∣ s i := fun i hi => gcd_dvd_scores hi
  have htotal : total A (fun i => (s i : Int)) = (W : Int) := total_natCast A s
  refine ⟨?_, ?_, fun i hi hw hpick => weight_ne_zero_of_pick hv hi hpick hw, ?_, ?_⟩
  · intro i hi
    have hlt := hrounds.count_lt (fun i _ => by positivity) (total_natCast_pos hW)
      (fun i _ => hzero i) hi
    rw [htotal] at hlt
    rw [show picks = js.map some from hpicks, count_map_some, List.length_map]
    exact_mod_cast hlt
  · intro i hpick
    rw [show picks = js.map some from hpicks] at hpick
    obtain ⟨j, hj, hji⟩ := List.mem_map.mp hpick
    obtain rfl := Option.some.inj hji
    exact hrounds.mem j hj
  · intro k hlen
    rw [show picks = js.map some from hpicks] at hlen ⊢
    rw [List.length_map] at hlen
    simp only [count_map_some]
    exact cycle_of_rounds hrounds hzero hW hg hlen
  · intro k hk
    rw [show picks = js.map some from hpicks] at hk ⊢
    rw [List.length_map] at hk
    -- The first period brings the credits back to zero.
    have hfirst : (js.take (W / g)).length = W / g := by
      rw [List.length_take]
      omega
    have hback : ∀ e, Rounds A (fun i => (s i : Int)) p.credit (js.take (W / g)) e →
        e = p.credit := by
      intro e he
      have hperiod : (js.take (W / g)).length = 1 * (W / g) := by rw [hfirst, Nat.one_mul]
      funext i
      exact ((cycle_of_rounds he hzero hW hg hperiod).2 i).trans (hzero i).symm
    have hsplit := List.take_append_drop (W / g) js
    rw [← hsplit] at hrounds hk
    have hrepeat := hrounds.getElem?_add hback (by rw [hfirst, Nat.add_comm]; exact hk)
    rw [hsplit, hfirst] at hrepeat
    rw [List.getElem?_map, List.getElem?_map, Nat.add_comm k, hrepeat]

end Pool

end Echofront
