import Echofront.Pool.Quarantine

/-!
# Outlier ejections

A failure ejects a backend when the run of failures since the last success reaches
the threshold and no ejection is active.  The design says that one outage is one
ejection, so an ejection should need a run of its own.

* `OutlierStep` says what a call can do to the failure run and to the expiry of a
  backend, and `expiry` reads the ejections of either kind off a run.
* `Counts` is the invariant of a run: the counter is no more than the failures
  since a moment after the last ejection was ended.
* Only a poll that ends an ejection resets the counter; `record_failure` itself
  looks at the clock.  A failure that comes after the expiry and before the next
  poll counts on from the old run.  `Ended` is the condition that it does not, and
  `outlier_ejection_fresh` the promise for the runs that meet it.
* `outlier_ejection_stale` is a run that does not.
-/

namespace Echofront

open Lib

namespace Pool

/-! ## Outcomes and ejections of a run -/

/-- Whether a call records a success of backend `i`. -/
def succeeds (i : Nat) : Op → Bool
  | .recordSuccess idx _ => idx == i
  | .recordSuccessLatency idx _ _ => idx == i
  | _ => false

/-- Whether a call records a failure of backend `i` at or after `u`. -/
def failsFrom (i u : Nat) : Op → Bool
  | .recordFailure idx now => idx == i && decide (u ≤ now)
  | _ => false

/-- The failures of backend `i` at or after `u` in a list of calls. -/
def failuresFrom (i u : Nat) (ops : List Op) : Nat := ops.countP (failsFrom i u)

/-- The expiry that a call sets when it ejects backend `i`, for its failures or for
its latency. -/
def expiry (i : Nat) (p : Pool) (op : Op) : Option Nat :=
  if (p.backend i).ejections < ((p.apply op).backend i).ejections ∨
      (p.backend i).ewmaEjections < ((p.apply op).backend i).ewmaEjections then
    ((p.apply op).backend i).ejectedUntil
  else none

/-- A failure of backend `i` at `t` after the calls `pre` has a run of its own: a
last part of the calls without a success of the backend, in which the threshold of
failures came at or after the expiry of its last ejection. -/
def FreshRun (p₀ : Pool) (i : Nat) (pre : List Op) (t : Nat) : Prop :=
  ∃ before run, pre ++ [.recordFailure i t] = before ++ run ∧
    (∀ op ∈ run, succeeds i op = false) ∧
    p₀.health.outlierConsecutiveFailures ≤
      failuresFrom i ((poolSystem.last (expiry i) p₀ pre).getD 0) run

/-- A failure of backend `i` at `t` that arms an ejection finds no ejection that has
expired without a poll to end it, or none that its failure run reaches back over:
the threshold is one, or since some moment at which the counter was zero every
failure came at or after the expiry. -/
def Ended (p₀ : Pool) (i : Nat) (pre : List Op) (t : Nat) : Prop :=
  ((poolSystem.exec p₀ pre).backend i).armsEjection p₀.health t = true →
    ∀ u, ((poolSystem.exec p₀ pre).backend i).ejectedUntil = some u →
      p₀.health.outlierConsecutiveFailures ≤ 1 ∨
      ∃ a b, pre = a ++ b ∧ ((poolSystem.exec p₀ a).backend i).outlierFailures = 0 ∧
        ∀ s, .recordFailure i s ∈ b → u ≤ s

theorem failuresFrom_append (i u : Nat) (xs ys : List Op) :
    failuresFrom i u (xs ++ ys) = failuresFrom i u xs + failuresFrom i u ys :=
  List.countP_append

/-- Failures that all come at or after `u` are counted in full. -/
theorem failuresFrom_eq {i u : Nat} {ops : List Op}
    (h : ∀ s, .recordFailure i s ∈ ops → u ≤ s) :
    failuresFrom i u ops = failuresFrom i 0 ops := by
  refine List.countP_congr (fun op hop => ?_)
  cases op with
  | recordFailure idx now =>
    by_cases hidx : idx = i
    · subst hidx
      simp [failsFrom, h now hop]
    · simp [failsFrom, hidx]
  | _ => rfl

theorem failuresFrom_singleton {i u t : Nat} (h : u ≤ t) :
    failuresFrom i u [.recordFailure i t] = 1 := by
  simp [failuresFrom, failsFrom, h]

/-! ## What one call does to a failure run -/

/-- What a call does to the failure run and the expiry of backend `i`.

* The backend is new.
* The call leaves the expiry, and at most it counts one failure.
* It ejects the backend.
* It is a success.
* It is a poll that ends the ejection. -/
inductive OutlierStep (i : Nat) (p : Pool) (op : Op) : Prop
  | fresh (habsent : p.backends.length ≤ i)
      (hcount : ((p.apply op).backend i).outlierFailures = 0)
      (huntil : ((p.apply op).backend i).ejectedUntil = none) (hexp : expiry i p op = none)
  | keeps (hs : succeeds i op = false)
      (hcount : ((p.apply op).backend i).outlierFailures ≤
        (p.backend i).outlierFailures + failuresFrom i 0 [op])
      (huntil : ((p.apply op).backend i).ejectedUntil = (p.backend i).ejectedUntil)
      (hexp : expiry i p op = none)
  | ejects {u : Nat} (hs : succeeds i op = false)
      (hcount : ((p.apply op).backend i).outlierFailures ≤
        (p.backend i).outlierFailures + failuresFrom i 0 [op])
      (huntil : ((p.apply op).backend i).ejectedUntil = some u) (hexp : expiry i p op = some u)
  | succeeded (hcount : ((p.apply op).backend i).outlierFailures = 0)
      (huntil : ((p.apply op).backend i).ejectedUntil = (p.backend i).ejectedUntil)
      (hexp : expiry i p op = none)
  | reinstates {u now : Nat} (htime : op.time = some now)
      (hold : (p.backend i).ejectedUntil = some u) (hle : u ≤ now)
      (hcount : ((p.apply op).backend i).outlierFailures = 0)
      (huntil : ((p.apply op).backend i).ejectedUntil = none) (hexp : expiry i p op = none)

theorem expiry_eq_none {i : Nat} {p : Pool} {op : Op}
    (h : ((p.apply op).backend i).ejection = (p.backend i).ejection) :
    expiry i p op = none ∧
      ((p.apply op).backend i).ejectedUntil = (p.backend i).ejectedUntil := by
  have hn : ((p.apply op).backend i).ejections = (p.backend i).ejections :=
    congrArg Backend.Ejection.ejections h
  have hm : ((p.apply op).backend i).ewmaEjections = (p.backend i).ewmaEjections :=
    congrArg Backend.Ejection.ewmaEjections h
  refine ⟨?_, congrArg Backend.Ejection.ejectedUntil h⟩
  rw [expiry, hn, hm, if_neg (by simp)]

/-- A call that neither polls, nor records an outcome of backend `i`, keeps its
failure run. -/
theorem outlierFailures_effect {p : Pool} {op : Op} {i : Nat} {b : Backend}
    (hpoll : op.pollTime = none) (hs : succeeds i op = false)
    (hf : failsFrom i 0 op = false) :
    (p.effect op i b).outlierFailures = b.outlierFailures := by
  have hstep := p.effectStep op i b
  generalize p.effect op i b = b' at hstep ⊢
  cases hstep with
  | polled now => exact absurd hpoll (by simp [Op.pollTime])
  | succeeded now => exact absurd hs (by simp [succeeds])
  | measured now latencyMs => exact absurd hs (by simp [succeeds])
  | failed now => exact absurd hf (by simp [failsFrom])
  | _ => rfl

/-- A success of backend `i` ends its failure run. -/
theorem outlierFailures_of_succeeds {p : Pool} {op : Op} {i : Nat} {b : Backend}
    (hs : succeeds i op = true) : (p.effect op i b).outlierFailures = 0 := by
  cases op with
  | recordSuccess idx now =>
    have hidx : idx = i := by simpa [succeeds] using hs
    simp only [effect, if_pos hidx]
    rfl
  | recordSuccessLatency idx now latencyMs =>
    have hidx : idx = i := by simpa [succeeds] using hs
    simp only [effect, if_pos hidx, Backend.recordSuccessLatency_eq]
  | _ => exact absurd hs (by simp [succeeds])

theorem outlierStep_poll {i now : Nat} {p : Pool} (hi : i < p.backends.length) :
    OutlierStep i p (.poll now) := by
  have heq : (p.apply (.poll now)).backend i =
      (p.backend i).poll p.ewma p.threshold now := backend_apply_of_lt hi (.poll now)
  have hn : ((p.apply (.poll now)).backend i).ejections = (p.backend i).ejections := by
    rw [heq, Backend.poll_ejections]
  have hcount := Backend.poll_outlierFailures p.ewma p.threshold now (p.backend i)
  rw [← heq] at hcount
  rcases Backend.ejectedUntil_poll_cases p.ewma p.threshold now (p.backend i) with
    ⟨hu, hm⟩ | ⟨u, hu, hm⟩ <;> rw [← heq] at hu hm
  · have hexp : expiry i p (.poll now) = none := by
      rw [expiry, hn, hm, if_neg (by simp)]
    cases hold : (p.backend i).ejectedUntil with
    | none =>
      refine .keeps rfl ?_ (by rw [hu, hold]; simp) hexp
      rw [hcount, if_neg (by simp [hold])]
      exact Nat.le_add_right _ _
    | some u =>
      by_cases hact : (p.backend i).isEjected now = true
      · refine .keeps rfl ?_ (by rw [hu, if_pos hact]) hexp
        rw [hcount, if_neg (by simp [hact])]
        exact Nat.le_add_right _ _
      · have hle : u ≤ now := by simpa [Backend.isEjected, hold] using hact
        refine .reinstates rfl hold hle ?_ (by rw [hu, if_neg hact]) hexp
        rw [hcount, if_pos ⟨by simp [hold], by simpa using hact⟩]
  · refine .ejects rfl ?_ hu ?_
    · rw [hcount]
      split_ifs
      · exact Nat.zero_le _
      · exact Nat.le_add_right _ _
    · rw [expiry, hm, if_pos (Or.inr (Nat.lt_succ_self _)), hu]

/-- The step lemma. -/
theorem outlierStep {p : Pool} {op : Op} (hok : p.Accepts op) (i : Nat) :
    OutlierStep i p op := by
  rcases backend_apply_cases hok i with ⟨hi, heq⟩ | ⟨hge, health, cfg, hb⟩
  · rcases p.effect_ejection_cases op i (p.backend i) with
      ⟨now, rfl⟩ | ⟨hpoll, hkeep⟩ | ⟨now, rfl, harms, harm⟩
    · exact outlierStep_poll hi
    · obtain ⟨hexp, huntil⟩ := expiry_eq_none (heq ▸ hkeep)
      cases hs : succeeds i op with
      | true => exact .succeeded (heq ▸ outlierFailures_of_succeeds hs) huntil hexp
      | false =>
        refine .keeps hs ?_ huntil hexp
        rw [heq]
        cases hf : failsFrom i 0 op with
        | false => exact Nat.le_add_right_of_le (outlierFailures_effect hpoll hs hf).le
        | true =>
          have hone : failuresFrom i 0 [op] = 1 := by simp [failuresFrom, hf]
          rw [hone]
          cases op with
          | recordFailure idx now =>
            have hidx : idx = i := by simpa [failsFrom] using hf
            simp only [effect, if_pos hidx, Backend.recordFailure_eq]
            exact incr32_le _
          | _ => exact absurd hf (by simp [failsFrom])
    · have hu : ((p.apply (.recordFailure i now)).backend i).ejectedUntil =
          some (saturatingAdd64 now p.health.ejectionBaseMs) :=
        heq ▸ congrArg Backend.Ejection.ejectedUntil harm
      have hn : ((p.apply (.recordFailure i now)).backend i).ejections =
          (p.backend i).ejections + 1 := heq ▸ congrArg Backend.Ejection.ejections harm
      refine .ejects rfl ?_ hu ?_
      · rw [heq, failuresFrom_singleton (Nat.zero_le now)]
        simp only [effect, if_true, Backend.recordFailure_eq]
        exact incr32_le _
      · rw [expiry, hn, if_pos (Or.inl (Nat.lt_succ_self _)), hu]
  · refine .fresh hge (by rw [hb]; rfl) (by rw [hb]; rfl) ?_
    rw [expiry, hb, if_neg (by simp [Backend.new])]

/-! ## The failure run over a run of calls -/

theorem OutlierStep.count_le {i : Nat} {p : Pool} {op : Op} (h : OutlierStep i p op) :
    ((p.apply op).backend i).outlierFailures ≤
      (p.backend i).outlierFailures + failuresFrom i 0 [op] := by
  cases h with
  | fresh _ hcount _ _ => exact hcount.le.trans (Nat.zero_le _)
  | keeps _ hcount _ _ => exact hcount
  | ejects _ hcount _ _ => exact hcount
  | succeeded hcount _ _ => exact hcount.le.trans (Nat.zero_le _)
  | reinstates _ _ _ hcount _ _ => exact hcount.le.trans (Nat.zero_le _)

/-- The counter grows by at most the failures of the calls. -/
theorem outlierFailures_exec_le {p : Pool} {ops : List Op} (hv : poolSystem.Valid p ops)
    (i : Nat) : ((poolSystem.exec p ops).backend i).outlierFailures ≤
      (p.backend i).outlierFailures + failuresFrom i 0 ops := by
  induction ops generalizing p with
  | nil => exact Nat.le_refl _
  | cons op ops ih =>
    have hstep := (outlierStep hv.1 i).count_le
    have hrest := ih hv.2
    have hcons : failuresFrom i 0 (op :: ops) =
        failuresFrom i 0 [op] + failuresFrom i 0 ops := failuresFrom_append i 0 [op] ops
    rw [hcons, System.exec_cons]
    exact hrest.trans (by
      show ((p.apply op).backend i).outlierFailures + _ ≤ _
      omega)

/-- What the state of backend `i` says of the run `ops`.  `expiry` is the expiry of
the last ejection, and the counter is no more than the failures of a last part of
the run, which begins after that ejection was ended. -/
structure Counts (p₀ : Pool) (i : Nat) (ops : List Op) (p : Pool) : Prop where
  expiry : ∀ u, (p.backend i).ejectedUntil = some u →
    poolSystem.last (expiry i) p₀ ops = some u
  absent : p.backends.length ≤ i → poolSystem.last (Pool.expiry i) p₀ ops = none
  run : ∃ before run, ops = before ++ run ∧ (∀ op ∈ run, succeeds i op = false) ∧
    (p.backend i).outlierFailures ≤ failuresFrom i 0 run ∧
    ((p.backend i).ejectedUntil = none →
      ∀ u, poolSystem.last (Pool.expiry i) p₀ ops = some u →
        ∃ op ∈ before, ∃ r, op.time = some r ∧ u ≤ r)

/-- A call that goes on with the failure run. -/
theorem Counts.run_concat {p₀ : Pool} {i : Nat} {ops : List Op} {p : Pool}
    (h : Counts p₀ i ops p) {op : Op} (hs : succeeds i op = false)
    (hcount : ((p.apply op).backend i).outlierFailures ≤
      (p.backend i).outlierFailures + failuresFrom i 0 [op]) :
    ∃ before run, ops ++ [op] = before ++ run ∧ (∀ o ∈ run, succeeds i o = false) ∧
      ((p.apply op).backend i).outlierFailures ≤ failuresFrom i 0 run ∧
      ((p.backend i).ejectedUntil = none →
        ∀ u, poolSystem.last (Pool.expiry i) p₀ ops = some u →
          ∃ o ∈ before, ∃ r, o.time = some r ∧ u ≤ r) := by
  obtain ⟨before, run, rfl, hrun, hle, hended⟩ := h.run
  refine ⟨before, run ++ [op], by simp, ?_, ?_, hended⟩
  · exact List.forall_mem_append.mpr ⟨hrun, List.forall_mem_singleton.mpr hs⟩
  · rw [failuresFrom_append]
    omega

theorem Counts.apply {p₀ : Pool} {i : Nat} {ops : List Op}
    (h : Counts p₀ i ops (poolSystem.exec p₀ ops)) {op : Op}
    (hok : (poolSystem.exec p₀ ops).Accepts op) :
    Counts p₀ i (ops ++ [op]) ((poolSystem.exec p₀ ops).apply op) := by
  have hlast := System.last_concat (M := poolSystem) (Pool.expiry i) p₀ ops op
  have habsent : ((poolSystem.exec p₀ ops).apply op).backends.length ≤ i →
      (poolSystem.exec p₀ ops).backends.length ≤ i :=
    Nat.le_trans ((poolSystem.exec p₀ ops).length_le_apply op)
  cases outlierStep hok i with
  | fresh hge hcount huntil hexp =>
    have hnone : poolSystem.last (Pool.expiry i) p₀ (ops ++ [op]) = none := by
      rw [hlast, hexp, h.absent hge]
      rfl
    refine ⟨fun u hu => ?_, fun _ => hnone, ops ++ [op], [], by simp, by simp, ?_, ?_⟩
    · rw [huntil] at hu
      exact absurd hu (by simp)
    · rw [hcount]
      exact Nat.zero_le _
    · intro _ u hu
      rw [hnone] at hu
      exact absurd hu (by simp)
  | keeps hs hcount huntil hexp =>
    rw [hexp, Option.none_or] at hlast
    obtain ⟨before, run, heq, hrun, hle, hended⟩ := h.run_concat hs hcount
    refine ⟨?_, fun hge => hlast ▸ h.absent (habsent hge), before, run, heq, hrun, hle, ?_⟩
    · rw [huntil, hlast]
      exact h.expiry
    · rw [huntil, hlast]
      exact hended
  | @ejects u hs hcount huntil hexp =>
    rw [hexp, Option.some_or] at hlast
    obtain ⟨before, run, heq, hrun, hle, _⟩ := h.run_concat hs hcount
    refine ⟨fun v hv => ?_, fun hge => ?_, before, run, heq, hrun, hle, fun hnone => ?_⟩
    · rw [hlast, ← huntil, hv]
    · rw [backend_of_ge hge] at huntil
      exact absurd huntil (by simp [default, Backend.new])
    · rw [huntil] at hnone
      exact absurd hnone (by simp)
  | succeeded hcount huntil hexp =>
    rw [hexp, Option.none_or] at hlast
    obtain ⟨before, run, heq, _, _, hended⟩ := h.run
    refine ⟨?_, fun hge => hlast ▸ h.absent (habsent hge), ops ++ [op], [], by simp, by simp,
      ?_, ?_⟩
    · rw [huntil, hlast]
      exact h.expiry
    · rw [hcount]
      exact Nat.zero_le _
    · rw [huntil, hlast]
      intro hnone u hu
      obtain ⟨o, ho, r, hr, hle⟩ := hended hnone u hu
      exact ⟨o, by rw [heq]; simp [ho], r, hr, hle⟩
  | @reinstates u now htime hold hle hcount huntil hexp =>
    rw [hexp, Option.none_or] at hlast
    refine ⟨fun v hv => ?_, fun hge => hlast ▸ h.absent (habsent hge), ops ++ [op], [],
      by simp, by simp, ?_, ?_⟩
    · rw [huntil] at hv
      exact absurd hv (by simp)
    · rw [hcount]
      exact Nat.zero_le _
    · -- the poll that ends the ejection is not before its expiry
      intro _ v hv
      rw [hlast, h.expiry u hold] at hv
      exact ⟨op, by simp, now, htime, Option.some.inj hv ▸ hle⟩

/-- The run lemma. -/
theorem counts_exec {p₀ : Pool} (h₀ : poolSystem.init p₀) {ops : List Op}
    (hv : poolSystem.Valid p₀ ops) (i : Nat) :
    Counts p₀ i ops (poolSystem.exec p₀ ops) := by
  refine System.Always.history (M := poolSystem) (I := fun ops p => Counts p₀ i ops p)
    ?_ (fun _ _ _ hok h => h.apply hok) hv
  obtain ⟨name, strategy, health, rfl⟩ := h₀
  refine ⟨fun u hu => ?_, fun _ => rfl, [], [], rfl, by simp, Nat.le_refl _, fun _ u hu => ?_⟩
  · exact absurd hu (by simp [Pool.new, backend, default, Backend.new])
  · exact absurd hu (by simp [System.last, System.events])

theorem health_exec (p : Pool) (ops : List Op) :
    (poolSystem.exec p ops).health = p.health := by
  induction ops generalizing p with
  | nil => rfl
  | cons op ops ih => exact (ih _).trans (health_apply p op)

/-! ## Each ejection and its failures -/

/-- A failure that counts an ejection was one that arms it. -/
theorem armsEjection_of_counted {p : Pool} {i t : Nat} (hi : i < p.backends.length)
    (h : (p.backend i).ejections < ((p.recordFailure i t).backend i).ejections) :
    (p.backend i).armsEjection p.health t = true := by
  have heq : (p.recordFailure i t).backend i = (p.backend i).recordFailure p.health t :=
    backend_modify_self hi _
  by_contra hno
  rw [heq, Backend.recordFailure_eq] at h
  simp [hno] at h

/-- A last part of the calls without a success, whose failures make up the counter and
all come, with the one at `t`, at or after the expiry of the last ejection. -/
def LateRun (p₀ : Pool) (i : Nat) (pre : List Op) (t : Nat) : Prop :=
  ∃ before run, pre = before ++ run ∧ (∀ op ∈ run, succeeds i op = false) ∧
    ((poolSystem.exec p₀ pre).backend i).outlierFailures ≤ failuresFrom i 0 run ∧
    ∀ s, .recordFailure i s ∈ run ++ [.recordFailure i t] →
      (poolSystem.last (expiry i) p₀ pre).getD 0 ≤ s

/-- A late run that reaches the threshold with the failure at `t` is a fresh one. -/
theorem LateRun.fresh {p₀ : Pool} {i : Nat} {pre : List Op} {t : Nat} (h : LateRun p₀ i pre t)
    (hthreshold : p₀.health.outlierConsecutiveFailures ≤
      incr32 ((poolSystem.exec p₀ pre).backend i).outlierFailures) : FreshRun p₀ i pre t := by
  obtain ⟨before, run, heq, hrun, hle, hlate⟩ := h
  refine ⟨before, run ++ [.recordFailure i t], by rw [heq]; simp, ?_, ?_⟩
  · exact List.forall_mem_append.mpr ⟨hrun, List.forall_mem_singleton.mpr rfl⟩
  · have hsucc := incr32_le ((poolSystem.exec p₀ pre).backend i).outlierFailures
    rw [failuresFrom_eq hlate, failuresFrom_append, failuresFrom_singleton (Nat.zero_le t)]
    omega

/-- After a poll has ended the last ejection, the run that is counted is a late one. -/
theorem Counts.late_of_none {p₀ : Pool} {i : Nat} {pre post : List Op} {t : Nat}
    (h : Counts p₀ i pre (poolSystem.exec p₀ pre))
    (hn : Nondecreasing Op.time (pre ++ .recordFailure i t :: post))
    (hu : ((poolSystem.exec p₀ pre).backend i).ejectedUntil = none) : LateRun p₀ i pre t := by
  obtain ⟨before, run, heq, hrun, hle, hafter⟩ := h.run
  refine ⟨before, run, heq, hrun, hle, fun s hs => ?_⟩
  cases hlast : poolSystem.last (Pool.expiry i) p₀ pre with
  | none => exact Nat.zero_le _
  | some u =>
    -- the poll that ended it comes before the run, and not before the expiry
    obtain ⟨op, hop, r, hr, hur⟩ := hafter hu u hlast
    have hn' : Nondecreasing Op.time (before ++ (run ++ .recordFailure i t :: post)) := by
      rw [← List.append_assoc, ← heq]
      exact hn
    have hmem : .recordFailure i s ∈ run ++ .recordFailure i t :: post := by
      rcases List.mem_append.mp hs with hs | hs
      · exact List.mem_append_left _ hs
      · rw [List.mem_singleton.mp hs]
        exact List.mem_append_right _ List.mem_cons_self
    exact hur.trans (hn'.le hop hr hmem rfl)

/-- An ejection has expired at `u` without a poll to end it.  If since some moment at
which the counter was zero every failure came at or after `u`, there is a late run. -/
theorem Counts.late_of_expired {p₀ : Pool} {i : Nat} {a b : List Op} {t u : Nat}
    (h : Counts p₀ i (a ++ b) (poolSystem.exec p₀ (a ++ b)))
    (hv : poolSystem.Valid p₀ (a ++ b))
    (hu : ((poolSystem.exec p₀ (a ++ b)).backend i).ejectedUntil = some u) (hut : u ≤ t)
    (hzero : ((poolSystem.exec p₀ a).backend i).outlierFailures = 0)
    (hlate : ∀ s, .recordFailure i s ∈ b → u ≤ s) : LateRun p₀ i (a ++ b) t := by
  obtain ⟨before, run, heq, hrun, hle, _⟩ := h.run
  have hlast := h.expiry u hu
  have hlate' : ∀ s, .recordFailure i s ∈ b ++ [.recordFailure i t] → u ≤ s := by
    intro s hs
    rcases List.mem_append.mp hs with hs | hs
    · exact hlate s hs
    · have hst : s = t := by simpa using hs
      exact hst ▸ hut
  -- the shorter of the two last parts has no success and only late failures
  rcases List.append_eq_append_iff.mp heq with ⟨c, hc, hbc⟩ | ⟨c, hc, hrunc⟩
  · refine ⟨before, run, heq, hrun, hle, fun s hs => ?_⟩
    rw [hlast]
    refine hlate' s ?_
    rw [hbc, List.append_assoc]
    exact List.mem_append_right _ hs
  · refine ⟨a, b, rfl, fun op hop => hrun op ?_, ?_, fun s hs => ?_⟩
    · rw [hrunc]
      exact List.mem_append_right _ hop
    · have hcount := outlierFailures_exec_le hv.right i
      rw [← System.exec_append, hzero, Nat.zero_add] at hcount
      exact hcount
    · rw [hlast]
      exact hlate' s hs

/-- A failure that counts an ejection, and whose run does not reach back over the
expiry of an ejection that no poll has ended, has a run of its own. -/
theorem freshRun_of_ended {p₀ : Pool} (h₀ : poolSystem.init p₀) {pre post : List Op} {i t : Nat}
    (hv : poolSystem.Valid p₀ (pre ++ .recordFailure i t :: post))
    (hn : Nondecreasing Op.time (pre ++ .recordFailure i t :: post))
    (hended : Ended p₀ i pre t)
    (hcount : ((poolSystem.exec p₀ pre).backend i).ejections <
      (((poolSystem.exec p₀ pre).recordFailure i t).backend i).ejections) :
    FreshRun p₀ i pre t := by
  have hi : i < (poolSystem.exec p₀ pre).backends.length := hv.right.1
  have harms := armsEjection_of_counted hi hcount
  rw [health_exec] at harms
  have hinv := counts_exec h₀ hv.left i
  obtain ⟨hthreshold, hact⟩ : p₀.health.outlierConsecutiveFailures ≤
        incr32 ((poolSystem.exec p₀ pre).backend i).outlierFailures ∧
      ((poolSystem.exec p₀ pre).backend i).isEjected t = false := by
    simpa [Backend.armsEjection] using harms
  cases hu : ((poolSystem.exec p₀ pre).backend i).ejectedUntil with
  | none => exact (hinv.late_of_none hn hu).fresh hthreshold
  | some u =>
    have hut : u ≤ t := by simpa [Backend.isEjected, hu] using hact
    rcases hended harms u hu with hone | ⟨a, b, rfl, hzero, hlate⟩
    · refine ⟨pre, [.recordFailure i t], rfl, by simp [succeeds], ?_⟩
      rw [hinv.expiry u hu, Option.getD_some, failuresFrom_singleton hut]
      exact hone
    · exact (hinv.late_of_expired hv.left hu hut hzero hlate).fresh hthreshold

/-- Each outlier ejection has a fresh run of failures, in every run of calls whose
times do not go back and whose failures never count on from before an ejection that
has expired without a poll. -/
theorem outlier_ejection_fresh {p₀ : Pool} (h₀ : poolSystem.init p₀) {ops : List Op}
    (hv : poolSystem.Valid p₀ ops) (hn : Nondecreasing Op.time ops) {i : Nat}
    (hended : ∀ pre t post, ops = pre ++ .recordFailure i t :: post → Ended p₀ i pre t) :
    ∀ pre t post, ops = pre ++ .recordFailure i t :: post →
      ((poolSystem.exec p₀ pre).backend i).ejections <
        (((poolSystem.exec p₀ pre).recordFailure i t).backend i).ejections →
      FreshRun p₀ i pre t := by
  intro pre t post heq hcount
  have hstep := hended pre t post heq
  subst heq
  exact freshRun_of_ended h₀ hv hn hstep hcount

/-- A new pool that ejects after two failures, for 100 ms. -/
def twoFailuresPool : Pool :=
  .new "api" .roundRobin
    { HealthConfig.default with
      outlierConsecutiveFailures := 2
      ejectionBaseMs := 100 }

/-- One backend, and three calls that begin at 0.  Two of them fail and eject the
backend until 120; the third one is still in flight. -/
def threeCalls : List Op :=
  [.addBackend (.new "a" 1 .default .default),
    .poll 0, .select 0 none [], .begin 0, .poll 0, .select 0 none [], .begin 0,
    .poll 0, .select 0 none [], .begin 0,
    .recordFailure 0 10, .endCall 0, .recordFailure 0 20, .endCall 0]

theorem valid_threeCalls : poolSystem.Valid twoFailuresPool threeCalls :=
  ⟨Backend.fresh_new _ _ _ _, trivial, trivial, Nat.zero_lt_succ 0, trivial, trivial,
    Nat.zero_lt_succ 0, trivial, trivial, Nat.zero_lt_succ 0, Nat.zero_lt_succ 0,
    Nat.zero_lt_succ 0, Nat.zero_lt_succ 0, Nat.zero_lt_succ 0, trivial⟩

/-- After a poll that ends the ejection, the third failure and one more eject the
backend again, and justly so. -/
theorem outlier_ejection_fresh_two :
    FreshRun twoFailuresPool 0 (threeCalls ++ [.poll 130, .recordFailure 0 130]) 140 := by
  let ops := threeCalls ++ [.poll 130, .recordFailure 0 130] ++ [.recordFailure 0 140]
  have hv : poolSystem.Valid twoFailuresPool ops :=
    (System.valid_append_iff _ _ _ _).mpr ⟨(System.valid_append_iff _ _ _ _).mpr
      ⟨valid_threeCalls, trivial, Nat.zero_lt_succ 0, trivial⟩, Nat.zero_lt_succ 0, trivial⟩
  -- every failure of the run finds the backend without an ejection
  have hnone : ∀ k < ops.length, (ops[k]?).map (failsFrom 0 0) = some false ∨
      ((poolSystem.exec twoFailuresPool (ops.take k)).backend 0).ejectedUntil = none := by
    decide
  have h₀ : poolSystem.init twoFailuresPool := ⟨_, _, _, rfl⟩
  refine outlier_ejection_fresh h₀ hv (by decide) (fun pre t post heq => ?_)
    (threeCalls ++ [.poll 130, .recordFailure 0 130]) 140 [] rfl (by decide)
  intro _ u hu
  have hk : pre.length < ops.length := by rw [heq]; simp
  have htake : ops.take pre.length = pre := by rw [heq]; simp
  have hget : ops[pre.length]? = some (.recordFailure 0 t) := by rw [heq]; simp
  rcases hnone pre.length hk with hno | hno
  · rw [hget] at hno
    exact absurd hno (by simp [failsFrom])
  · rw [htake, hu] at hno
    exact absurd hno (by simp)

/-- Every selection of a list of calls comes right after a poll at its time. -/
def selectsPolled : List Op → Bool
  | [] => true
  | .poll now :: .select now' _ _ :: ops => decide (now = now') && selectsPolled ops
  | .select _ _ _ :: _ => false
  | _ :: ops => selectsPolled ops

/-- The third call fails at 130, after the expiry at 120 and before the next poll.
It ejects the backend again, though it is the only failure since the expiry. -/
theorem outlier_ejection_stale :
    poolSystem.Valid twoFailuresPool (threeCalls ++ [.recordFailure 0 130]) ∧
    Nondecreasing Op.time (threeCalls ++ [.recordFailure 0 130]) ∧
    selectsPolled (threeCalls ++ [.recordFailure 0 130]) = true ∧
    1 ≤ twoFailuresPool.health.outlierConsecutiveFailures ∧
    ((poolSystem.exec twoFailuresPool (threeCalls.take 8)).select 0 none []).1 = some 0 ∧
    ((poolSystem.exec twoFailuresPool threeCalls).backend 0).ejections <
      (((poolSystem.exec twoFailuresPool threeCalls).recordFailure 0 130).backend
        0).ejections ∧
    ¬ FreshRun twoFailuresPool 0 threeCalls 130 := by
  refine ⟨?_, by decide, by decide, by decide, by decide, by decide, ?_⟩
  · exact (System.valid_append_iff _ _ _ _).mpr
      ⟨valid_threeCalls, Nat.zero_lt_succ 0, trivial⟩
  · intro h
    obtain ⟨before, run, heq, _, hle⟩ := h
    have hlast : poolSystem.last (expiry 0) twoFailuresPool threeCalls = some 120 := by
      decide
    have hall : failuresFrom 0 120 (threeCalls ++ [.recordFailure 0 130]) = 1 := by decide
    have htwo : twoFailuresPool.health.outlierConsecutiveFailures = 2 := rfl
    rw [hlast, Option.getD_some, htwo] at hle
    rw [heq, failuresFrom_append] at hall
    omega

end Pool

end Echofront
