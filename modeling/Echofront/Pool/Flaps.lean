import Echofront.Lib.Project
import Echofront.Lib.Timer
import Echofront.Pool.Probes

/-!
# Flaps

How often the health of a backend can change within a time.  An upstream that comes and
goes would flap without the two thresholds and the interval of the probes.

* `probes_le`: within `[t, T]` a backend gets at most one probe, and one more for each
  interval.  The time of the last probe is an interval timer.
* `turns_le`: every change of the health takes its threshold of probes.  The potential is
  the counter of the reply that could change the health.
-/

namespace Echofront

open Lib

namespace Pool

/-- Whether a backend is healthy. -/
def isHealthy (i : Nat) (p : Pool) : Bool := (p.backend i).healthy

/-- One for a call that sends a probe to backend `i`. -/
def probesSent (i : Nat) (p : Pool) (op : Op) : Nat := (issuedProbe i p op).toList.length

/-- The replies in a row that a change of the health to `live` takes. -/
def turnCost (p : Pool) (live : Bool) : Nat := max 1 (p.health.probeThreshold live)

variable {p : Pool} {i : Nat}

theorem probeDue_eq (b : Backend) (health : HealthConfig) (now : Nat) :
    b.probeDue health now = due health.probeIntervalMs b.lastProbe now := by
  unfold Backend.probeDue due
  cases b.lastProbe <;> rfl

/-- A probe is paid for by the room of its timer. -/
theorem room_apply (hi : i < p.backends.length) (hpos : 0 < p.health.probeIntervalMs)
    (op : Op) {T t : Nat} (ht : ∀ u, op.time = some u → t ≤ u ∧ u ≤ T) :
    p.probesSent i op +
        room p.health.probeIntervalMs T ((p.apply op).backend i).lastProbe (op.time.getD t) ≤
      room p.health.probeIntervalMs T (p.backend i).lastProbe t := by
  have hlater : t ≤ op.time.getD t := by
    cases htime : op.time with
    | none => exact Nat.le_refl t
    | some u => exact (ht u htime).1
  rw [backend_apply_of_lt hi]
  rcases p.effect_probe_cases op i with ⟨hnone, hkeep⟩ | ⟨now, live, hsome, hdue, heff⟩
  · have hlast : (p.effect op i (p.backend i)).lastProbe = (p.backend i).lastProbe :=
      congrArg Backend.Probing.lastProbe hkeep
    rw [probesSent, hnone, hlast]
    exact (Nat.zero_add _).trans_le (room_anti hlater)
  · obtain ⟨probe, rfl, _⟩ := issuedProbe_eq_some hsome
    have hlast := (Backend.probing_runHealthCheck hdue live).1
    rw [probesSent, hsome, heff, hlast]
    rw [probeDue_eq] at hdue
    exact (room_fire hpos hdue (ht now rfl).2).trans (room_anti hlater)

/-- Within `[t, T]` a backend gets at most one probe, and one more for each interval. -/
theorem probes_le (hi : i < p.backends.length) (hpos : 0 < p.health.probeIntervalMs)
    {ops : List Op} (hv : poolSystem.Valid p ops) (hn : Nondecreasing Op.time ops) {t T : Nat}
    (hle : t ≤ T) (ht : ∀ op ∈ ops, ∀ u, op.time = some u → t ≤ u ∧ u ≤ T) :
    poolSystem.total (probesSent i) p ops ≤ 1 + (T - t) / p.health.probeIntervalMs := by
  obtain ⟨health, hhealth⟩ : ∃ health, p.health = health := ⟨_, rfl⟩
  have hbound := System.Valid.total_le_of_potential (M := poolSystem) Op.time (T := T)
    (I := fun q => i < q.backends.length ∧ q.health = health)
    (Φ := fun t q => room health.probeIntervalMs T (q.backend i).lastProbe t)
    (w := probesSent i) (c := fun _ _ => 0)
    (fun q op hq _ => ⟨Nat.lt_of_lt_of_le hq.1 (q.length_le_apply op),
      (q.health_apply op).trans hq.2⟩)
    (fun q op u hq _ hu => by
      obtain ⟨hlt, rfl⟩ := hq
      exact room_apply hlt (hhealth ▸ hpos) op hu)
    ⟨hi, hhealth⟩ hv hn ht
  rw [System.total_zero, ← hhealth] at hbound
  exact hbound.trans (room_le hpos hle)

/-- A change of the health is paid for by the counter of the reply that makes it, and only
a probe raises the counter. -/
theorem count_apply (hi : i < p.backends.length) (op : Op) :
    p.turnCost true * poolSystem.turns (isHealthy i) true p op +
        p.turnCost false * poolSystem.turns (isHealthy i) false p op +
        ((p.apply op).backend i).probing.count (!((p.apply op).backend i).healthy) ≤
      (p.backend i).probing.count (!(p.backend i).healthy) + p.probesSent i op := by
  have hafter : ∀ v, poolSystem.turns (isHealthy i) v p op =
      if (p.backend i).healthy = (!v) ∧ ((p.apply op).backend i).healthy = v then 1 else 0 :=
    fun _ => rfl
  rw [hafter, hafter, backend_apply_of_lt hi]
  rcases p.effect_probe_cases op i with ⟨hnone, hkeep⟩ | ⟨now, live, hsome, hdue, heff⟩
  · have hhealthy : (p.effect op i (p.backend i)).healthy = (p.backend i).healthy :=
      congrArg Backend.Probing.healthy hkeep
    rw [hkeep, hhealthy, probesSent, hnone]
    cases (p.backend i).healthy <;> simp
  · have hgrow : ∀ n, incr32 n ≤ n + 1 := fun n => Nat.mod_le _ _
    have hsent : p.probesSent i op = 1 := by rw [probesSent, hsome]; rfl
    rw [heff, hsent]
    rcases (p.backend i).runHealthCheck_cases p.health now live with ⟨hnot, _⟩ |
      ⟨_, _, ⟨hlive, hh, hc⟩ | ⟨hlive, hle, hh, hc⟩ | ⟨hlive, _, hh, hc⟩⟩
    · exact absurd (hdue.symm.trans hnot) (by decide)
    · rw [hh, hc]
      cases (p.backend i).healthy <;> simp
    · have hback : (p.backend i).healthy = !live := by rw [hlive, Bool.not_not]
      have hcost : p.turnCost live ≤ (p.backend i).probing.count live + 1 :=
        Nat.max_le.mpr ⟨Nat.le_add_left 1 _, hle.trans (hgrow _)⟩
      rw [hback] at hc
      rw [hh, hback, hc, Bool.not_not]
      cases live <;> simpa using hcost
    · have hcount := hgrow ((p.backend i).probing.count live)
      rw [hh, ← hlive, hc]
      cases (p.backend i).healthy <;> simpa using hcount

theorem turnCost_apply (p : Pool) (op : Op) (live : Bool) :
    (p.apply op).turnCost live = p.turnCost live := by
  rw [turnCost, turnCost, p.health_apply]

/-- Every change of the health takes its threshold of probes. -/
theorem turns_le (hi : i < p.backends.length) {ops : List Op} (hv : poolSystem.Valid p ops) :
    p.turnCost true * poolSystem.total (poolSystem.turns (isHealthy i) true) p ops +
        p.turnCost false * poolSystem.total (poolSystem.turns (isHealthy i) false) p ops ≤
      (p.backend i).probing.count (!(p.backend i).healthy) +
        poolSystem.total (probesSent i) p ops := by
  induction ops generalizing p with
  | nil => exact Nat.zero_le _
  | cons op ops ih =>
    have hrest := ih (Nat.lt_of_lt_of_le hi (p.length_le_apply op)) hv.2
    have hpay := count_apply hi op
    have hstep : poolSystem.step p op = p.apply op := rfl
    simp only [turnCost_apply, System.total_cons, hstep, Nat.mul_add] at hrest ⊢
    omega

end Pool

end Echofront
