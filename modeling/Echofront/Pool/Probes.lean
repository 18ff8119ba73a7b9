import Echofront.Pool.Quarantine
import Echofront.Lib.Verdict

/-!
# Active health

A health check probes a backend when a probe is due, and a run of equal replies changes
the health of the backend.  The code keeps a counter for each of the two replies; each
goes back to zero at the other reply and when it has changed the health.

* `issuedProbe` reads the probes off a run, each with its time and its reply.
* `Probed` is the invariant of a run: the counter of the reply that could change the
  health is the length of the run of that reply at the end of the history, and the health
  is what the history settles on.
* `health_of_probes` is the statement about runs, and `probe_issued_early` why it makes
  an exception for an interval of zero.
-/

namespace Echofront

open Lib

/-- The number of equal replies that changes the health. -/
def HealthConfig.probeThreshold (health : HealthConfig) (live : Bool) : Nat :=
  if live then health.healthyProbeThreshold else health.unhealthyProbeThreshold

namespace Backend

/-- The part of a backend that a health check reads and writes. -/
structure Probing where
  healthy : Bool
  probeFailures : Nat
  probeSuccesses : Nat
  lastProbe : Option Nat
deriving DecidableEq

def probing (b : Backend) : Probing where
  healthy := b.healthy
  probeFailures := b.probeFailures
  probeSuccesses := b.probeSuccesses
  lastProbe := b.lastProbe

/-- The counter of one of the two replies. -/
def Probing.count (s : Probing) (live : Bool) : Nat :=
  if live then s.probeSuccesses else s.probeFailures

/-- Whether a reply is the one that changes the health. -/
def changesHealth (b : Backend) (health : HealthConfig) (live : Bool) : Bool :=
  live != b.healthy && decide (health.probeThreshold live ≤ incr32 (b.probing.count live))

theorem runHealthCheck_of_due {health : HealthConfig} {now : Nat} {b : Backend}
    (hdue : b.probeDue health now = true) (live : Bool) :
    b.runHealthCheck health now live =
      if live then
        if b.changesHealth health live then
          { b with
            lastProbe := some now
            probeFailures := 0
            healthy := true
            probeSuccesses := 0 }
        else
          { b with
            lastProbe := some now
            probeFailures := 0
            probeSuccesses := incr32 b.probeSuccesses }
      else
        if b.changesHealth health live then
          { b with
            lastProbe := some now
            probeSuccesses := 0
            healthy := false
            probeFailures := 0 }
        else
          { b with
            lastProbe := some now
            probeSuccesses := 0
            probeFailures := incr32 b.probeFailures } := by
  simp only [runHealthCheck, if_pos hdue, changesHealth, HealthConfig.probeThreshold]
  cases live <;> simp [Probing.count, probing]

/-- What a probe leaves of what a health check reads and writes. -/
theorem probing_runHealthCheck {health : HealthConfig} {now : Nat} {b : Backend}
    (hdue : b.probeDue health now = true) (live : Bool) :
    (b.runHealthCheck health now live).lastProbe = some now ∧
      (b.runHealthCheck health now live).healthy =
        (if b.changesHealth health live then live else b.healthy) ∧
      ∀ v, (b.runHealthCheck health now live).probing.count v =
        if v = live ∧ b.changesHealth health live = false then incr32 (b.probing.count live)
        else 0 := by
  rw [runHealthCheck_of_due hdue]
  cases b.changesHealth health live <;> cases live <;> simp [Probing.count, probing]

/-- The ways a health check can go: no probe is due, the reply agrees with the health, or
it is one more against it, the last one or not. -/
theorem runHealthCheck_cases (health : HealthConfig) (now : Nat) (live : Bool) (b : Backend) :
    (b.probeDue health now = false ∧ b.runHealthCheck health now live = b) ∨
    (b.probeDue health now = true ∧
      (b.runHealthCheck health now live).lastProbe = some now ∧
      ((live = b.healthy ∧
          (b.runHealthCheck health now live).healthy = b.healthy ∧
          (b.runHealthCheck health now live).probing.count (!b.healthy) = 0) ∨
        (live = !b.healthy ∧
          health.probeThreshold live ≤ incr32 (b.probing.count live) ∧
          (b.runHealthCheck health now live).healthy = live ∧
          (b.runHealthCheck health now live).probing.count b.healthy = 0) ∨
        (live = !b.healthy ∧
          incr32 (b.probing.count live) < health.probeThreshold live ∧
          (b.runHealthCheck health now live).healthy = b.healthy ∧
          (b.runHealthCheck health now live).probing.count live =
            incr32 (b.probing.count live)))) := by
  cases hdue : b.probeDue health now with
  | false => exact Or.inl ⟨rfl, by simp [runHealthCheck, hdue]⟩
  | true =>
    obtain ⟨hlast, hhealthy, hcount⟩ := probing_runHealthCheck hdue live
    refine Or.inr ⟨rfl, hlast, ?_⟩
    by_cases hlive : live = b.healthy
    · have hno : b.changesHealth health live = false := by simp [changesHealth, hlive]
      refine Or.inl ⟨hlive, by simp [hhealthy, hno], ?_⟩
      rw [hcount, if_neg (by simp [hlive])]
    · have hagainst : live = !b.healthy := Bool.eq_not_of_ne hlive
      by_cases hle : health.probeThreshold live ≤ incr32 (b.probing.count live)
      · have hyes : b.changesHealth health live = true := by simp [changesHealth, hlive, hle]
        refine Or.inr (Or.inl ⟨hagainst, hle, by simp [hhealthy, hyes], ?_⟩)
        rw [hcount, if_neg (by simp [hyes])]
      · have hno : b.changesHealth health live = false := by simp [changesHealth, hle]
        refine Or.inr (Or.inr ⟨hagainst, Nat.lt_of_not_le hle, by simp [hhealthy, hno], ?_⟩)
        rw [hcount, if_pos ⟨rfl, hno⟩]

end Backend

namespace Pool

/-! ## The probes of a run -/

/-- The probe that a call sends to backend `i`: its time and the reply it gets. -/
def issuedProbe (i : Nat) (p : Pool) : Op → Option (Nat × Bool)
  | .runHealthChecks now probe =>
    if (p.backend i).probeDue p.health now then some (now, probe i) else none
  | _ => none

theorem issuedProbe_eq_some {p : Pool} {op : Op} {i now : Nat} {live : Bool}
    (h : issuedProbe i p op = some (now, live)) :
    ∃ probe, op = .runHealthChecks now probe ∧ probe i = live := by
  cases op with
  | runHealthChecks t probe =>
    simp only [issuedProbe] at h
    split_ifs at h
    obtain ⟨rfl, hlive⟩ := Prod.mk.inj (Option.some.inj h)
    exact ⟨probe, rfl, hlive⟩
  | _ => exact absurd h (by simp [issuedProbe])

/-- Only a health check touches what a health check reads and writes. -/
theorem effect_probing {p : Pool} {op : Op} (h : ∀ now probe, op ≠ .runHealthChecks now probe)
    (i : Nat) (b : Backend) : (p.effect op i b).probing = b.probing := by
  have hstep := p.effectStep op i b
  generalize p.effect op i b = b' at hstep ⊢
  cases hstep with
  | polled now =>
    rw [Backend.poll_eq]
    rfl
  | probed now probe => exact absurd rfl (h now probe)
  | _ => rfl

/-- A call sends no probe to a backend and leaves what a health check reads and writes, or
it checks the backend with the reply to its probe. -/
theorem effect_probe_cases (p : Pool) (op : Op) (i : Nat) :
    (issuedProbe i p op = none ∧
      (p.effect op i (p.backend i)).probing = (p.backend i).probing) ∨
    ∃ now live, issuedProbe i p op = some (now, live) ∧
      (p.backend i).probeDue p.health now = true ∧
      p.effect op i (p.backend i) = (p.backend i).runHealthCheck p.health now live := by
  by_cases hop : ∀ now probe, op ≠ .runHealthChecks now probe
  · have hnone : issuedProbe i p op = none := by
      cases op with
      | runHealthChecks now probe => exact absurd rfl (hop now probe)
      | _ => rfl
    exact Or.inl ⟨hnone, effect_probing hop i _⟩
  · push Not at hop
    obtain ⟨now, probe, rfl⟩ := hop
    cases hdue : (p.backend i).probeDue p.health now with
    | true => exact Or.inr ⟨now, probe i, by simp [issuedProbe, hdue], hdue, rfl⟩
    | false =>
      refine Or.inl ⟨by simp [issuedProbe, hdue], ?_⟩
      simp [effect, Backend.runHealthCheck, hdue]

/-- What the probes of a run make of a backend.  Below, `probes.map Prod.snd` are its
replies. -/
structure Probed (health : HealthConfig) (start : Bool) (probes : List (Nat × Bool))
    (b : Backend) : Prop where
  last : b.lastProbe = probes.getLast?.map Prod.fst
  settled : probes.length < 2 ^ 32 →
    Settled health.probeThreshold start (probes.map Prod.snd) b.healthy
  /-- The counter of the reply that could change the health. -/
  count : probes.length < 2 ^ 32 →
    b.probing.count (!b.healthy) = trailing (!b.healthy) (probes.map Prod.snd)

/-- What the invariant says depends only on what a health check reads and writes. -/
theorem Probed.congr {health : HealthConfig} {start : Bool} {probes : List (Nat × Bool)}
    {b b' : Backend} (h : Probed health start probes b) (heq : b'.probing = b.probing) :
    Probed health start probes b' := by
  have hhealthy : b'.healthy = b.healthy := congrArg Backend.Probing.healthy heq
  refine ⟨(congrArg Backend.Probing.lastProbe heq).trans h.last, ?_, ?_⟩
  · rw [hhealthy]
    exact h.settled
  · rw [hhealthy, heq]
    exact h.count

/-- The step lemma of a health check that probes the backend. -/
theorem Probed.probe {health : HealthConfig} {start : Bool} {probes : List (Nat × Bool)}
    {b : Backend} (h : Probed health start probes b) {now : Nat} (live : Bool)
    (hdue : b.probeDue health now = true) :
    Probed health start (probes ++ [(now, live)]) (b.runHealthCheck health now live) := by
  rcases b.runHealthCheck_cases health now live with ⟨hnot, _⟩ | ⟨_, hlast, hcases⟩
  · exact absurd (hdue.symm.trans hnot) (by decide)
  have hmap : (probes ++ [(now, live)]).map Prod.snd = probes.map Prod.snd ++ [live] := by
    simp
  have hlen : (probes ++ [(now, live)]).length = probes.length + 1 := by simp
  -- one more reply against the health is counted exactly
  have hcount : probes.length + 1 < 2 ^ 32 → live = !b.healthy →
      incr32 (b.probing.count live) = trailing live (probes.map Prod.snd ++ [live]) := by
    intro hlt hlive
    have hle := trailing_le_length live (probes.map Prod.snd)
    rw [List.length_map] at hle
    rw [hlive, h.count (by omega), ← hlive, trailing_concat, if_pos rfl]
    exact incr32_eq (by unfold u32Max; omega)
  have hpos : 1 ≤ trailing live (probes.map Prod.snd ++ [live]) := by
    rw [trailing_concat, if_pos rfl]
    exact Nat.le_add_left 1 _
  have hother : trailing (!live) (probes.map Prod.snd ++ [live]) = 0 := by
    rw [trailing_concat, if_neg (by simp)]
  refine ⟨by rw [hlast]; simp, ?_, ?_⟩ <;> intro hlt <;> rw [hlen] at hlt <;> rw [hmap]
  · have hs := h.settled (Nat.lt_of_succ_lt hlt)
    rcases hcases with ⟨hlive, hh, _⟩ | ⟨hlive, hle, hh, _⟩ | ⟨hlive, hlt', hh, _⟩
    · rw [hh, ← hlive]
      rw [← hlive] at hs
      exact hs.concat_self
    · rw [hh]
      rw [hcount hlt hlive] at hle
      exact settled_concat_of_le start (Nat.max_le.mpr ⟨hpos, hle⟩)
    · rw [hh]
      rw [hcount hlt hlive] at hlt'
      exact hs.concat_of_lt (Nat.lt_of_lt_of_le hlt' (Nat.le_max_right _ _))
  · rcases hcases with ⟨hlive, hh, hc⟩ | ⟨hlive, _, hh, hc⟩ | ⟨hlive, _, hh, hc⟩
    · rw [hh, hc, ← hlive, hother]
    · have hback : b.healthy = !live := by rw [hlive, Bool.not_not]
      rw [hh, ← hback, hc, hback, hother]
    · rw [hh, ← hlive, hc, hcount hlt hlive]

/-- The run lemma. -/
theorem probed_exec {p : Pool} {i : Nat} (hi : i < p.backends.length) {start : Bool}
    (h : Probed p.health start [] (p.backend i)) {ops : List Op}
    (hv : poolSystem.Valid p ops) :
    i < (poolSystem.exec p ops).backends.length ∧
    (poolSystem.exec p ops).health = p.health ∧
    Probed p.health start (poolSystem.events (issuedProbe i) p ops)
      ((poolSystem.exec p ops).backend i) := by
  refine System.Always.history (M := poolSystem)
    (I := fun ops q => i < q.backends.length ∧ q.health = p.health ∧
      Probed p.health start (poolSystem.events (issuedProbe i) p ops) (q.backend i))
    ⟨hi, rfl, h⟩ ?_ hv
  intro ops op _ _ hinv
  obtain ⟨hlt, hhealth, hp⟩ := hinv
  rw [System.events_concat]
  generalize poolSystem.exec p ops = q at hlt hhealth hp ⊢
  refine ⟨Nat.lt_of_lt_of_le hlt (q.length_le_apply op), (q.health_apply op).trans hhealth, ?_⟩
  show Probed _ _ _ ((q.apply op).backend i)
  rw [backend_apply_of_lt hlt]
  rcases q.effect_probe_cases op i with ⟨hnone, hkeep⟩ | ⟨now, live, hsome, hdue, heff⟩
  · rw [hnone, Option.toList_none, List.append_nil]
    exact hp.congr hkeep
  · rw [hsome, heff]
    rw [hhealth] at hdue ⊢
    exact hp.probe live hdue

theorem probed_new (name : String) (weight : Nat) (health health' : HealthConfig)
    (breakerCfg : BreakerConfig) :
    Probed health' health.startHealthy [] (.new name weight health breakerCfg) := by
  refine ⟨rfl, fun _ => settled_nil _ _, fun _ => ?_⟩
  simp [Backend.Probing.count, Backend.probing, Backend.new]

/-- When a probe is due, by the last one. -/
theorem probeDue_iff (b : Backend) (health : HealthConfig) (now : Nat) :
    b.probeDue health now = true ↔
      b.lastProbe = none ∨
      ∃ t, b.lastProbe = some t ∧ (t + health.probeIntervalMs ≤ now ∨
        health.probeIntervalMs = 0) := by
  unfold Backend.probeDue
  cases b.lastProbe with
  | none => simp
  | some t =>
    simp only [decide_eq_true_eq, reduceCtorEq, false_or, Option.some.injEq, exists_eq_left']
    omega

/-- The health of a backend is what its probes settle on, over every run of calls after
it was added, with any times.

* A health check probes it when no check has probed it before, when an interval has
  passed since the last probe, or when the interval is zero.
* It is healthy when the latest run of equal replies that has reached its threshold was
  one of good replies, or when there is none and it started healthy.
* No other call changes its health. -/
theorem health_of_probes (p : Pool) (name : String) (weight : Nat) (health : HealthConfig)
    (breakerCfg : BreakerConfig) {ops : List Op}
    (hv : poolSystem.Valid (p.addBackend (.new name weight health breakerCfg)) ops) :
    let q := p.addBackend (.new name weight health breakerCfg)
    let i := p.backends.length
    let probes := poolSystem.events (issuedProbe i) q
    let limit := p.health.probeThreshold
    (∀ pre now probe post, ops = pre ++ .runHealthChecks now probe :: post →
      (issuedProbe i (poolSystem.exec q pre) (.runHealthChecks now probe) =
          some (now, probe i) ↔
        (probes pre).getLast? = none ∨
        ∃ t live, (probes pre).getLast? = some (t, live) ∧
          (t + p.health.probeIntervalMs ≤ now ∨ p.health.probeIntervalMs = 0))) ∧
    (∀ pre post, ops = pre ++ post → (probes pre).length < 2 ^ 32 →
      let replies := (probes pre).map Prod.snd
      (((poolSystem.exec q pre).backend i).healthy = true ↔
        (∃ k, LatestVerdict limit replies k true) ∨
        (health.startHealthy = true ∧ ∀ k v, ¬ VerdictAt limit replies k v))) ∧
    ∀ pre op post, ops = pre ++ op :: post →
      (∀ now probe, op ≠ .runHealthChecks now probe) →
      ((poolSystem.exec q (pre ++ [op])).backend i).healthy =
        ((poolSystem.exec q pre).backend i).healthy := by
  intro q i probes limit
  have hi : i < q.backends.length := by simp [q, i, addBackend]
  have hnew : Probed p.health health.startHealthy [] (q.backend i) := by
    have hb : q.backend i = .new name weight health breakerCfg :=
      backend_eq_of_getElem? (by simp [q, i, addBackend])
    rw [hb]
    exact probed_new name weight health p.health breakerCfg
  have hrun : ∀ pre post, ops = pre ++ post → _ := fun pre post heq =>
    probed_exec hi hnew (heq ▸ hv).left
  refine ⟨?_, ?_, ?_⟩
  · intro pre now probe post heq
    obtain ⟨_, hhealth, hp⟩ := hrun pre _ heq
    have hissued : issuedProbe i (poolSystem.exec q pre) (.runHealthChecks now probe) =
          some (now, probe i) ↔
        ((poolSystem.exec q pre).backend i).probeDue p.health now = true := by
      have hh : (poolSystem.exec q pre).health = p.health := hhealth
      simp only [issuedProbe, hh]
      split_ifs with hdue <;> simp [hdue]
    rw [hissued, probeDue_iff, hp.last]
    simp [probes, q, i]
  · intro pre post heq hlt replies
    obtain ⟨_, _, hp⟩ := hrun pre post heq
    have hs := hp.settled hlt
    constructor
    · intro hh
      rw [hh] at hs
      exact hs.imp_right (fun h => ⟨h.1.symm, h.2⟩)
    · intro h
      exact hs.unique (h.imp_right (fun h => ⟨h.1.symm, h.2⟩))
  · intro pre op post heq hop
    obtain ⟨hlt, _, _⟩ := hrun pre _ heq
    rw [exec_concat, backend_apply_of_lt hlt]
    exact congrArg Backend.Probing.healthy (effect_probing hop i _)

/-- A probe, a check within the interval, and a probe. -/
theorem health_of_probes_two :
    let q := (Pool.new "api" .roundRobin .default).addBackend (.new "a" 1 .default .default)
    issuedProbe 0 (poolSystem.exec q [.runHealthChecks 0 fun _ => false,
      .runHealthChecks 500 fun _ => false]) (.runHealthChecks 1000 fun _ => true) =
      some (1000, true) := by
  intro q
  have hv : poolSystem.Valid q [.runHealthChecks 0 fun _ => false,
      .runHealthChecks 500 fun _ => false, .runHealthChecks 1000 fun _ => true] :=
    ⟨trivial, trivial, trivial, trivial⟩
  exact ((health_of_probes (.new "api" .roundRobin .default) "a" 1 .default .default hv).1
    [.runHealthChecks 0 fun _ => false, .runHealthChecks 500 fun _ => false] 1000
    (fun _ => true) [] rfl).mpr (Or.inr ⟨0, false, by decide, Or.inl (by decide)⟩)

/-- With an interval of zero a check probes also before the time of the last probe: the
time since then saturates at zero. -/
theorem probe_issued_early :
    let health : HealthConfig := { HealthConfig.default with probeIntervalMs := 0 }
    let q := (Pool.new "api" .roundRobin health).addBackend (.new "a" 1 health .default)
    let pre : List Op := [.runHealthChecks 10 fun _ => true]
    poolSystem.Valid q (pre ++ [.runHealthChecks 5 fun _ => true]) ∧
    issuedProbe 0 (poolSystem.exec q pre) (.runHealthChecks 5 fun _ => true) =
      some (5, true) ∧
    ¬ ((poolSystem.events (issuedProbe 0) q pre).getLast? = none ∨
      ∃ t live, (poolSystem.events (issuedProbe 0) q pre).getLast? = some (t, live) ∧
        t + health.probeIntervalMs ≤ 5) := by
  intro health q pre
  have hlast : (poolSystem.events (issuedProbe 0) q pre).getLast? = some (10, true) := by
    decide
  refine ⟨⟨trivial, trivial, trivial⟩, by decide, ?_⟩
  rw [hlast]
  rintro (h | ⟨t, live, h, hle⟩)
  · exact absurd h (by simp)
  · obtain ⟨rfl, _⟩ := Prod.mk.inj (Option.some.inj h)
    exact absurd hle (by decide)

end Pool

end Echofront
