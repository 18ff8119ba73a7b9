import Echofront.Pool.Outlier
import Echofront.Pool.Probes

/-!
# Recovery

What time gives back to a backend that has failed, without the latency layer.

* `QuietSince` says that the quarantines of a backend began by some time.  A failure is
  the only call that can break it, and only a later one (`QuietSince.exec`); once the
  cooldown and the ejection have passed since then, a healthy backend with a free slot is
  available (`QuietSince.isAvailable`).
* `Passed` counts the health checks of a run that lie at least a probe interval apart.
  Each of them stands for one good probe, up to one, so enough of them make the backend
  healthy (`healthy_of_checks`).
-/

namespace Echofront

open Lib

namespace Pool

/-! ## Quiet -/

/-- There is no latency layer, and the quarantines of backend `i` began by `t₀`. -/
structure QuietSince (p : Pool) (i t₀ : Nat) : Prop where
  ewma : p.ewma = none
  opened : (p.backend i).breaker.state = .open → (p.backend i).breaker.openedAt ≤ t₀
  ejected : ∀ u, (p.backend i).ejectedUntil = some u → u ≤ t₀ + p.health.ejectionBaseMs

/-- A call that records no failure of backend `i` after `t₀`, and does not attach the
latency layer. -/
def QuietOp (i t₀ : Nat) : Op → Prop
  | .recordFailure idx now => idx = i → now ≤ t₀
  | .enableEwma _ => False
  | _ => True

namespace QuietSince

variable {p : Pool} {i t₀ : Nat}

theorem of_fresh (he : p.ewma = none) (hb : (p.backend i).Fresh) : p.QuietSince i t₀ := by
  obtain ⟨health, cfg, heq⟩ := hb
  refine ⟨he, fun ho => ?_, fun u hu => ?_⟩
  · rw [heq] at ho
    exact absurd ho (by simp [Backend.new, CircuitBreaker.new])
  · rw [heq] at hu
    exact absurd hu (by simp [Backend.new])

/-- A breaker that is open after a call was open before, or the call is a failure. -/
theorem opened_effect (h : p.QuietSince i t₀) {op : Op} (hq : QuietOp i t₀ op)
    (ho : (p.effect op i (p.backend i)).breaker.state = .open) :
    (p.effect op i (p.backend i)).breaker.openedAt ≤ t₀ := by
  have hstep := p.effectStep op i (p.backend i)
  generalize p.effect op i (p.backend i) = b' at hstep ho ⊢
  cases hstep with
  | polled now =>
    rw [Backend.poll_breaker] at ho ⊢
    rw [CircuitBreaker.poll_openedAt]
    exact h.opened (CircuitBreaker.cooling_of_poll ho).1
  | succeeded now =>
    rcases CircuitBreaker.apply_open_cases (e := .onSuccess now) ho with ⟨hop, hat⟩ | ⟨hlt, _⟩
    · exact hat ▸ h.opened hop
    · exact absurd hlt (by simp [CircuitBreaker.apply])
  | measured now latencyMs =>
    rcases CircuitBreaker.apply_open_cases (e := .onSuccess now) ho with ⟨hop, hat⟩ | ⟨hlt, _⟩
    · exact hat ▸ h.opened hop
    · exact absurd hlt (by simp [CircuitBreaker.apply])
  | failed now =>
    rcases CircuitBreaker.apply_open_cases (e := .onFailure now) ho with ⟨hop, hat⟩ | ⟨_, hat⟩
    · exact hat ▸ h.opened hop
    · exact hat ▸ hq rfl
  | _ => exact h.opened ho

theorem ejected_effect (h : p.QuietSince i t₀) {op : Op} (hq : QuietOp i t₀ op) {u : Nat}
    (hu : (p.effect op i (p.backend i)).ejectedUntil = some u) :
    u ≤ t₀ + p.health.ejectionBaseMs := by
  rcases p.effect_ejection_cases op i (p.backend i) with ⟨now, rfl⟩ | ⟨_, heq⟩ | ⟨now, rfl, _, _⟩
  · rcases ejectedUntil_effect h.ewma hu with ⟨hold, _⟩ | ⟨_, _, _, hn⟩
    · exact h.ejected u hold
    · have hsame : (p.effect (.poll now) i (p.backend i)).ejections = (p.backend i).ejections :=
        Backend.poll_ejections _ _ _ _
      omega
  · exact h.ejected u ((congrArg Backend.Ejection.ejectedUntil heq).symm.trans hu)
  · rcases ejectedUntil_effect h.ewma hu with ⟨hold, _⟩ | ⟨t, ht, hle, _⟩
    · exact h.ejected u hold
    · obtain rfl : now = t := Option.some.inj ht
      have hnow : now ≤ t₀ := hq rfl
      omega

/-- A call that is quiet keeps a backend quiet. -/
theorem apply (h : p.QuietSince i t₀) {op : Op} (hok : p.Accepts op) (hq : QuietOp i t₀ op) :
    (p.apply op).QuietSince i t₀ := by
  have hewma : (p.apply op).ewma = none := by
    rw [ewma_apply p op (fun cfg he => by rw [he] at hq; exact hq)]
    exact h.ewma
  rcases backend_apply_cases hok i with ⟨hi, heq⟩ | ⟨_, hfresh⟩
  · refine ⟨hewma, fun ho => ?_, fun u hu => ?_⟩
    · rw [heq] at ho ⊢
      exact h.opened_effect hq ho
    · rw [heq] at hu
      rw [health_apply]
      exact h.ejected_effect hq hu
  · exact of_fresh hewma hfresh

theorem exec (h : p.QuietSince i t₀) {ops : List Op} (hv : poolSystem.Valid p ops)
    (hq : ∀ op ∈ ops, QuietOp i t₀ op) : (poolSystem.exec p ops).QuietSince i t₀ :=
  System.preserved (M := poolSystem) (P := fun q => q.QuietSince i t₀) (Q := QuietOp i t₀)
    (fun _ _ hs hok hqop => hs.apply hok hqop) h hv hq

/-- When the cooldown and the ejection have passed, a healthy backend with a free slot is
available. -/
theorem isAvailable (h : p.QuietSince i t₀) (hi : i < p.backends.length)
    (hh : (p.backend i).healthy = true)
    (hfree : (p.backend i).inFlight < max (p.backend i).breaker.cfg.halfOpenMaxCalls 1)
    {T : Nat} (hcool : t₀ + (p.backend i).breaker.cfg.cooldownMs ≤ T)
    (hexp : t₀ + p.health.ejectionBaseMs ≤ T) :
    ((p.poll T).backend i).isAvailable T = true := by
  have hq : (p.poll T).backend i = (p.backend i).poll p.ewma p.threshold T :=
    backend_apply_of_lt hi (.poll T)
  have hok : p.Accepts (.poll T) := trivial
  have hquiet : (p.poll T).QuietSince i t₀ := h.apply hok trivial
  rw [Backend.isAvailable, Bool.and_eq_true, Bool.and_eq_true, Bool.not_eq_true',
    isEjected_eq_false_iff]
  refine ⟨⟨?_, fun u hu => Nat.le_trans (hquiet.ejected u hu) hexp⟩, ?_⟩
  · rw [hq, Backend.poll_healthy]
    exact hh
  · have hin : ((p.poll T).backend i).inFlight = (p.backend i).inFlight := by
      rw [hq, Backend.poll_inFlight]
    have hbr : ((p.poll T).backend i).breaker = (p.backend i).breaker.poll T := by
      rw [hq, Backend.poll_breaker]
    rw [CircuitBreaker.admits_eq_true_iff, hin, hbr, CircuitBreaker.poll_cfg]
    cases hst : ((p.backend i).breaker.poll T).state with
    | closed => exact Or.inl rfl
    | halfOpen => exact Or.inr (Or.inl ⟨rfl, hfree⟩)
    | «open» =>
      -- a breaker that is still cooling opened after `t₀`
      obtain ⟨ho, hlt, _⟩ := CircuitBreaker.cooling_of_poll hst
      have hat := h.opened ho
      omega

end QuietSince

/-- A backend that is available after a poll, with a weight where that counts, is a
candidate. -/
theorem mem_candidates_of_isAvailable {p : Pool} {i T : Nat} (hi : i < p.backends.length)
    (hav : ((p.poll T).backend i).isAvailable T = true)
    (hweight : p.strategy = .weighted → (p.backend i).weight ≠ 0) :
    i ∈ (p.poll T).candidates T [] := by
  have hpolled : (p.poll T).backend i = (p.backend i).poll p.ewma p.threshold T :=
    backend_apply_of_lt hi (.poll T)
  refine mem_candidates.mpr ⟨by simpa [Pool.poll] using hi, List.not_mem_nil, hav, fun hs => ?_⟩
  rw [hpolled, Backend.poll_weight]
  exact hweight hs

/-! ## Health checks -/

/-- The time of a health check. -/
def checkTime : Op → Option Nat
  | .runHealthChecks now _ => some now
  | _ => none

/-- While a backend is unhealthy its good probes have not reached the threshold. -/
theorem probeSuccesses_lt_of_reachable {p : Pool} (h : p.Reachable) (i : Nat)
    (hh : (p.backend i).healthy = false) :
    (p.backend i).probeSuccesses = 0 ∨
      (p.backend i).probeSuccesses < p.health.healthyProbeThreshold := by
  have hnew : ∀ {b : Backend}, b.Fresh → b.probeSuccesses = 0 := by
    intro b hb
    obtain ⟨health, cfg, heq⟩ := hb
    rw [heq]
    rfl
  refine System.Reachable.invariant (M := poolSystem)
    (I := fun p => (p.backend i).healthy = false → (p.backend i).probeSuccesses = 0 ∨
      (p.backend i).probeSuccesses < p.health.healthyProbeThreshold) ?_ ?_ h hh
  · intro p₀ h₀ _
    obtain ⟨name, strategy, health, rfl⟩ := h₀
    exact Or.inl rfl
  · intro q op hq hok hunhealthy
    have hunhealthy : ((q.apply op).backend i).healthy = false := hunhealthy
    show ((q.apply op).backend i).probeSuccesses = 0 ∨
      ((q.apply op).backend i).probeSuccesses < (q.apply op).health.healthyProbeThreshold
    rw [health_apply]
    rcases backend_apply_cases hok i with ⟨_, heq⟩ | ⟨_, hfresh⟩
    · rw [heq] at hunhealthy ⊢
      rcases q.effect_probe_cases op i with ⟨_, hkeep⟩ | ⟨now, live, _, hdue, heff⟩
      · have hsame := congrArg Backend.Probing.healthy hkeep
        have hcount : (q.effect op i (q.backend i)).probeSuccesses =
            (q.backend i).probeSuccesses := congrArg Backend.Probing.probeSuccesses hkeep
        rw [hcount]
        exact hq (hsame.symm.trans hunhealthy)
      · rw [heff] at hunhealthy ⊢
        obtain ⟨_, hhealthy, hcount⟩ := Backend.probing_runHealthCheck hdue live
        have hgood := hcount true
        rw [hhealthy] at hunhealthy
        change ((q.backend i).runHealthCheck q.health now live).probeSuccesses = _ at hgood
        rw [hgood]
        split_ifs with hlive
        · -- a good reply that did not change the health is below the threshold
          obtain ⟨rfl, hno⟩ := hlive
          rw [hno, if_neg (by decide)] at hunhealthy
          have hlow : ¬ q.health.probeThreshold true ≤
              incr32 ((q.backend i).probing.count true) := by
            intro hle
            simp [Backend.changesHealth, hunhealthy, hle] at hno
          exact Or.inr (Nat.lt_of_not_le hlow)
        · exact Or.inl rfl
    · exact Or.inl (hnew hfresh)

/-- What the checks at the times `ts`, each a probe interval after the one before, have
done for a backend that is probed with good replies: it is healthy, or its good probes are
as many as the checks, up to one.  A probe later than all of them makes up for that one. -/
def Passed (ts : List Nat) (b : Backend) : Prop :=
  b.healthy = true ∨
    (ts.length ≤ b.probeSuccesses + 1 ∧
      ∀ l, b.lastProbe = some l → (∀ t ∈ ts, t < l) → ts.length ≤ b.probeSuccesses)

theorem Passed.congr {ts : List Nat} {b b' : Backend} (h : Passed ts b)
    (heq : b'.probing = b.probing) : Passed ts b' := by
  have hhealthy : b'.healthy = b.healthy := congrArg Backend.Probing.healthy heq
  have hlast : b'.lastProbe = b.lastProbe := congrArg Backend.Probing.lastProbe heq
  have hcount : b'.probeSuccesses = b.probeSuccesses :=
    congrArg Backend.Probing.probeSuccesses heq
  unfold Passed
  rw [hhealthy, hlast, hcount]
  exact h

/-- A good probe makes an unhealthy backend healthy, or adds one to its good probes. -/
theorem probe_live {health : HealthConfig} {now : Nat} {b : Backend}
    (hdue : b.probeDue health now = true)
    (hroom : b.healthy = false → b.probeSuccesses < u32Max) :
    (b.runHealthCheck health now true).healthy = true ∨
      ((b.runHealthCheck health now true).lastProbe = some now ∧
        (b.runHealthCheck health now true).probeSuccesses = b.probeSuccesses + 1) := by
  obtain ⟨hlast, hhealthy, hcount⟩ := Backend.probing_runHealthCheck hdue true
  cases hchange : b.changesHealth health true with
  | true => exact Or.inl (by rw [hhealthy, if_pos hchange])
  | false =>
    cases hh : b.healthy with
    | true => exact Or.inl (by rw [hhealthy, hchange, if_neg (by decide), hh])
    | false =>
      have hgood := hcount true
      rw [if_pos ⟨rfl, hchange⟩] at hgood
      exact Or.inr ⟨hlast, hgood.trans (incr32_eq (hroom hh))⟩

/-- One call keeps the count, and a check that comes a probe interval after the others
joins them. -/
theorem Passed.apply {p : Pool} (h : p.Reachable) {i : Nat} (hi : i < p.backends.length)
    (hu32 : p.health.healthyProbeThreshold ≤ u32Max) {ts : List Nat}
    (hpass : Passed ts (p.backend i)) {op : Op}
    (hlive : ∀ now probe, op = .runHealthChecks now probe → probe i = true) :
    Passed ts ((p.apply op).backend i) ∧
      ∀ s, checkTime op = some s →
        (∀ t ∈ ts, t + p.health.probeIntervalMs ≤ s) →
        (∀ l, (p.backend i).lastProbe = some l → l ≤ s) →
        Passed (ts ++ [s]) ((p.apply op).backend i) := by
  rw [backend_apply_of_lt hi]
  rcases p.effect_probe_cases op i with ⟨hnone, hkeep⟩ | ⟨now, live, hsome, hdue, heff⟩
  · refine ⟨hpass.congr hkeep, fun s hs hspaced hlast => ?_⟩
    -- no probe is due, so the last one came less than an interval ago
    obtain ⟨probe, rfl⟩ : ∃ probe, op = .runHealthChecks s probe := by
      cases op with
      | runHealthChecks now probe => exact ⟨probe, by rw [Option.some.inj hs]⟩
      | _ => exact absurd hs (by simp [checkTime])
    have hnot : (p.backend i).probeDue p.health s = false := by
      by_contra hdue
      simp [issuedProbe, hdue] at hnone
    obtain ⟨l, hl, hclose⟩ : ∃ l, (p.backend i).lastProbe = some l ∧
        s - l < p.health.probeIntervalMs := by
      unfold Backend.probeDue at hnot
      cases hl : (p.backend i).lastProbe with
      | none => simp [hl] at hnot
      | some l => exact ⟨l, rfl, by simpa [hl] using hnot⟩
    refine Passed.congr ?_ hkeep
    rcases hpass with hh | ⟨_, hmore⟩
    · exact Or.inl hh
    · have hearlier : ∀ t ∈ ts, t < l := fun t ht => by
        have hsp := hspaced t ht
        omega
      refine Or.inr ⟨?_, fun l' hl' hall => ?_⟩
      · rw [List.length_append]
        exact Nat.succ_le_succ (hmore l hl hearlier)
      · have hlate := hall s (by simp)
        have hle := hlast l' hl'
        omega
  · obtain ⟨probe, rfl, hprobe⟩ := issuedProbe_eq_some hsome
    obtain rfl : live = true := hprobe.symm.trans (hlive now probe rfl)
    have hroom : (p.backend i).healthy = false → (p.backend i).probeSuccesses < u32Max := by
      intro hh
      have hpos : 0 < u32Max := by decide
      rcases probeSuccesses_lt_of_reachable h i hh with h0 | hlt <;> omega
    rw [heff]
    rcases probe_live hdue hroom with hh | ⟨hlast, hcount⟩
    · exact ⟨Or.inl hh, fun _ _ _ _ => Or.inl hh⟩
    · -- if the backend was healthy before, it still is
      by_cases hbefore : (p.backend i).healthy = true
      · have hafter : ((p.backend i).runHealthCheck p.health now true).healthy = true := by
          have hsame := (Backend.probing_runHealthCheck hdue true).2.1
          rw [hsame, hbefore, ite_self]
        exact ⟨Or.inl hafter, fun _ _ _ _ => Or.inl hafter⟩
      · have hle := (hpass.resolve_left hbefore).1
        refine ⟨Or.inr ⟨by omega, fun _ _ _ => by omega⟩, fun s hs _ _ => ?_⟩
        obtain rfl : now = s := Option.some.inj hs
        refine Or.inr ⟨?_, fun l hl hall => ?_⟩
        · rw [List.length_append, List.length_singleton]
          omega
        · rw [hlast] at hl
          have hlate := hall now (by simp)
          rw [← Option.some.inj hl] at hlate
          exact absurd hlate (Nat.lt_irrefl _)

/-- With good replies a healthy backend stays healthy. -/
theorem healthy_exec {p : Pool} {i : Nat} (hi : i < p.backends.length)
    (hh : (p.backend i).healthy = true) {ops : List Op} (hv : poolSystem.Valid p ops)
    (hlive : ∀ now probe, Op.runHealthChecks now probe ∈ ops → probe i = true) :
    ((poolSystem.exec p ops).backend i).healthy = true := by
  have hseg := System.preserved (M := poolSystem)
    (P := fun q => i < q.backends.length ∧ (q.backend i).healthy = true)
    (Q := fun op => ∀ now probe, op = .runHealthChecks now probe → probe i = true)
    (fun q op hq _ hgood => by
      obtain ⟨hlt, hhealthy⟩ := hq
      refine ⟨Nat.lt_of_lt_of_le hlt (q.length_le_apply op), ?_⟩
      show ((q.apply op).backend i).healthy = true
      rw [backend_apply_of_lt hlt]
      rcases q.effect_probe_cases op i with ⟨_, hkeep⟩ | ⟨now, live, hsome, hdue, heff⟩
      · exact (congrArg Backend.Probing.healthy hkeep).trans hhealthy
      · obtain ⟨probe, rfl, hprobe⟩ := issuedProbe_eq_some hsome
        obtain rfl : live = true := hprobe.symm.trans (hgood now probe rfl)
        rw [heff, (Backend.probing_runHealthCheck hdue true).2.1, hhealthy, ite_self])
    ⟨hi, hh⟩ hv (fun op hop now probe heq => hlive now probe (heq ▸ hop))
  exact hseg.2

/-- The last probe was there before the run, or it was sent in it. -/
theorem lastProbe_exec {p : Pool} {i : Nat} (hi : i < p.backends.length) {ops : List Op}
    {l : Nat} (hl : ((poolSystem.exec p ops).backend i).lastProbe = some l) :
    (p.backend i).lastProbe = some l ∨ ∃ op ∈ ops, op.time = some l := by
  induction ops generalizing p with
  | nil => exact Or.inl hl
  | cons op ops ih =>
    rcases ih (Nat.lt_of_lt_of_le hi (p.length_le_apply op)) hl with hbefore | ⟨o, ho, ht⟩
    · have hafter : (p.effect op i (p.backend i)).lastProbe = some l := by
        rw [← backend_apply_of_lt hi]
        exact hbefore
      rcases p.effect_probe_cases op i with ⟨_, hkeep⟩ | ⟨now, live, hsome, hdue, heff⟩
      · exact Or.inl ((congrArg Backend.Probing.lastProbe hkeep).symm.trans hafter)
      · rw [heff, (Backend.probing_runHealthCheck hdue live).1] at hafter
        obtain ⟨probe, rfl, _⟩ := issuedProbe_eq_some hsome
        exact Or.inr ⟨_, List.mem_cons_self, hafter⟩
    · exact Or.inr ⟨o, List.mem_cons_of_mem _ ho, ht⟩

/-- The run lemma, by induction on the last call. -/
theorem passed_exec {p : Pool} (h : p.Reachable) {i : Nat} (hi : i < p.backends.length)
    (hu32 : p.health.healthyProbeThreshold ≤ u32Max) {ops : List Op}
    (hv : poolSystem.Valid p ops) (hn : Nondecreasing Op.time ops)
    (hstart : ∀ l, (p.backend i).lastProbe = some l →
      ∀ op ∈ ops, ∀ s, op.time = some s → l ≤ s)
    (hlive : ∀ now probe, Op.runHealthChecks now probe ∈ ops → probe i = true)
    {ts : List Nat} (hts : ts.Sublist (ops.filterMap checkTime))
    (hspaced : ts.Pairwise (fun s t => s + p.health.probeIntervalMs ≤ t)) :
    Passed ts ((poolSystem.exec p ops).backend i) := by
  induction ops using List.reverseRecOn generalizing ts with
  | nil =>
    obtain rfl : ts = [] := List.sublist_nil.mp hts
    exact Or.inr ⟨Nat.zero_le _, fun _ _ _ => Nat.zero_le _⟩
  | append_singleton ops op ih =>
    have hrec : ∀ {us : List Nat}, us.Sublist (ops.filterMap checkTime) →
        us.Pairwise (fun s t => s + p.health.probeIntervalMs ≤ t) →
        Passed us ((poolSystem.exec p ops).backend i) :=
      fun hus hsp => ih hv.left hn.left
        (fun l hl o ho => hstart l hl o (List.mem_append_left _ ho))
        (fun now probe hmem => hlive now probe (List.mem_append_left _ hmem)) hus hsp
    have hreach : (poolSystem.exec p ops).Reachable := System.Reachable.exec h hv.left
    have hlt : i < (poolSystem.exec p ops).backends.length :=
      Nat.lt_of_lt_of_le hi (p.length_le_exec ops)
    have hhealth : (poolSystem.exec p ops).health = p.health := health_exec p ops
    have hgood : ∀ now probe, op = .runHealthChecks now probe → probe i = true :=
      fun now probe heq => hlive now probe (by simp [heq])
    rw [exec_concat]
    rw [List.filterMap_append] at hts
    obtain ⟨us, vs, rfl, hus, hvs⟩ := List.sublist_append_iff.mp hts
    obtain ⟨hspus, _, hcross⟩ := List.pairwise_append.mp hspaced
    obtain ⟨hkeep, hjoin⟩ := (hrec hus hspus).apply hreach hlt (by rw [hhealth]; exact hu32)
      hgood
    cases hc : checkTime op with
    | none =>
      rw [List.filterMap_cons_none hc] at hvs
      obtain rfl : vs = [] := List.sublist_nil.mp hvs
      rw [List.append_nil]
      exact hkeep
    | some s =>
      rw [List.filterMap_cons_some hc] at hvs
      rcases List.sublist_singleton.mp hvs with rfl | rfl
      · rw [List.append_nil]
        exact hkeep
      · have hs : op.time = some s := by
          cases op with
          | runHealthChecks now probe => exact hc
          | _ => exact absurd hc (by simp [checkTime])
        refine hjoin s hc ?_ ?_
        · rw [hhealth]
          exact fun t ht => hcross t ht s (List.mem_singleton_self s)
        · intro l hl
          rcases lastProbe_exec hi hl with hbefore | ⟨o, ho, hot⟩
          · exact hstart l hbefore op (by simp) s hs
          · exact hn.le ho hot (List.mem_singleton_self op) hs

/-- One check more than the threshold, each a probe interval after the one before and all
with good replies, makes a backend healthy. -/
theorem healthy_of_checks {p : Pool} (h : p.Reachable) {i : Nat}
    (hi : i < p.backends.length) (hu32 : p.health.healthyProbeThreshold ≤ u32Max)
    {ops : List Op} (hv : poolSystem.Valid p ops) (hn : Nondecreasing Op.time ops)
    (hstart : ∀ l, (p.backend i).lastProbe = some l →
      ∀ op ∈ ops, ∀ s, op.time = some s → l ≤ s)
    (hlive : ∀ now probe, Op.runHealthChecks now probe ∈ ops → probe i = true)
    {ts : List Nat} (hts : ts.Sublist (ops.filterMap checkTime))
    (hspaced : ts.Pairwise (fun s t => s + p.health.probeIntervalMs ≤ t))
    (hlen : max 1 p.health.healthyProbeThreshold < ts.length) :
    ((poolSystem.exec p ops).backend i).healthy = true := by
  rcases passed_exec h hi hu32 hv hn hstart hlive hts hspaced with hh | ⟨hle, _⟩
  · exact hh
  · by_contra hno
    have hreach : (poolSystem.exec p ops).Reachable := System.Reachable.exec h hv
    have hlow := probeSuccesses_lt_of_reachable hreach i (Bool.eq_false_iff.mpr hno)
    rw [health_exec] at hlow
    omega

end Pool

end Echofront
