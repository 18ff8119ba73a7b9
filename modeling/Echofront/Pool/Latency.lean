import Echofront.Pool.Quarantine

/-!
# Latency ejections

With the latency layer a poll ejects a backend whose average has been above the
line for a whole window.  The comment in the source says that the window counts
only with fresh evidence, so that a reinstated backend is never ejected again on
stale samples.

* `OverAt` is what a poll has to find for the window to go on, and `Justified`
  is what the comment promises of an ejection: an unbroken window before it, and
  enough samples in it.
* `staleWindow` is the way the promise breaks.  An outlier ejection leaves
  `over_since` set, no poll evaluates the backend while it is ejected, and the
  poll that reinstates it goes on with the old window.
* `InWindow` is the invariant of the runs in which that never happens, and
  `latency_ejection_justified` the promise for those runs.
* `latency_ejection_stale` is a run in which it does happen.
-/

namespace Echofront

open Lib

namespace Pool

/-! ## Windows in a run -/

/-- A poll at `now` finds backend `i` over the line of the pool: not ejected,
with enough samples, and with an average strictly above the line. -/
def OverAt (cfg : EwmaConfig) (i : Nat) (p : Pool) (now : Nat) : Prop :=
  (p.backend i).isEjected now = false ∧ cfg.minSamples ≤ (p.backend i).ewmaSamples ∧
    ∃ e ∈ (p.backend i).latencyEwmaMilli, cfg.thresholdMilli p.ewmaMean < e

/-- If the call is a poll, it finds backend `i` over the line. -/
def PollsOver (cfg : EwmaConfig) (i : Nat) (p : Pool) (op : Op) : Prop :=
  ∀ now ∈ op.pollTime, OverAt cfg i p now

/-- Whether a call folds a latency sample into backend `i`. -/
def foldsLatency (i : Nat) : Op → Bool
  | .recordSuccessLatency idx _ _ => idx == i
  | _ => false

/-- The latency samples of backend `i` in a list of calls. -/
def samplesIn (i : Nat) (ops : List Op) : Nat := ops.countP (foldsLatency i)

/-- What justifies a latency ejection of backend `i` by a poll at `t` after the
calls `ops`: an earlier poll at `s`, a window ago, such that every poll from `s`
to `t` finds the backend over the line, and enough samples after `s`. -/
def Justified (cfg : EwmaConfig) (p₀ : Pool) (ops : List Op) (i t : Nat) : Prop :=
  ∃ pre s mid, ops = pre ++ .poll s :: mid ∧ cfg.windowMs ≤ t - s ∧
    poolSystem.Always (PollsOver cfg i) (poolSystem.exec p₀ pre)
      (.poll s :: mid ++ [.poll t]) ∧
    cfg.minSamples ≤ samplesIn i mid

/-- A poll that would go on with the window of a backend that an ejection
interrupted: the ejection has expired, `over_since` is still set, and the
average is above the line. -/
def staleWindow (cfg : EwmaConfig) (i : Nat) (p : Pool) (now : Nat) : Prop :=
  (p.backend i).ejectedUntil ≠ none ∧ (p.backend i).overSince ≠ none ∧ OverAt cfg i p now

/-- If the call is a poll, it does not meet a stale window of backend `i`. -/
def NoStaleWindow (cfg : EwmaConfig) (i : Nat) (p : Pool) (op : Op) : Prop :=
  ∀ now ∈ op.pollTime, ¬ staleWindow cfg i p now

instance (cfg : EwmaConfig) (i : Nat) (p : Pool) (now : Nat) :
    Decidable (OverAt cfg i p now) :=
  inferInstanceAs (Decidable (_ ∧ _ ∧ ∃ e ∈ (p.backend i).latencyEwmaMilli, _))

instance (cfg : EwmaConfig) (i : Nat) (p : Pool) (op : Op) :
    Decidable (PollsOver cfg i p op) :=
  inferInstanceAs (Decidable (∀ now ∈ op.pollTime, _))

instance (cfg : EwmaConfig) (i : Nat) (p : Pool) (now : Nat) :
    Decidable (staleWindow cfg i p now) :=
  inferInstanceAs (Decidable (_ ∧ _ ∧ _))

instance (cfg : EwmaConfig) (i : Nat) (p : Pool) (op : Op) :
    Decidable (NoStaleWindow cfg i p op) :=
  inferInstanceAs (Decidable (∀ now ∈ op.pollTime, _))

/-- The condition that the loop of `Pool::poll` evaluates. -/
theorem overAt_iff {cfg : EwmaConfig} {p : Pool} (he : p.ewma = some cfg) (i now : Nat) :
    OverAt cfg i p now ↔ (p.backend i).isEjected now = false ∧
      (p.backend i).isOver cfg (p.threshold.getD 0) = true := by
  have hline : p.threshold.getD 0 = cfg.thresholdMilli p.ewmaMean := by
    simp [threshold, he]
  rw [hline]
  simp only [OverAt, Backend.isOver, Bool.and_eq_true, decide_eq_true_eq]
  cases (p.backend i).latencyEwmaMilli <;> simp

/-- A call adds at most the sample it folds. -/
theorem ewmaSamples_effect_le (p : Pool) (op : Op) (i : Nat) (b : Backend) :
    (p.effect op i b).ewmaSamples ≤ b.ewmaSamples + samplesIn i [op] := by
  have hstep := p.effectStep op i b
  generalize p.effect op i b = b' at hstep ⊢
  cases hstep with
  | polled now =>
    rw [Backend.poll_ewmaSamples]
    exact Nat.le_add_right _ _
  | measured now latencyMs =>
    have hone : samplesIn i [.recordSuccessLatency i now latencyMs] = 1 := by
      simp [samplesIn, foldsLatency]
    rw [hone]
    cases p.ewma with
    | none => exact Nat.le_succ _
    | some cfg => exact incr32_le _
  | _ => exact Nat.le_add_right _ _

/-! ## The invariant of a window -/

/-- If the call is a poll, it finds backend `i` over the line and with no
ejection since the last poll. -/
def PollsOn (cfg : EwmaConfig) (i : Nat) (p : Pool) (op : Op) : Prop :=
  ∀ now ∈ op.pollTime, OverAt cfg i p now ∧ (p.backend i).ejectedUntil = none

/-- A window of backend `i` in the calls `pre ++ .poll since :: mid`. -/
structure Window (cfg : EwmaConfig) (p₀ : Pool) (i since : Nat) (pre mid : List Op) :
    Prop where
  opened : OverAt cfg i (poolSystem.exec p₀ pre) since
  unbroken : poolSystem.Always (PollsOn cfg i) ((poolSystem.exec p₀ pre).poll since) mid

/-- The start that a backend remembers is the start of a window, and the
samples that it counts have arrived in it. -/
def InWindow (cfg : EwmaConfig) (p₀ : Pool) (i : Nat) (ops : List Op) (p : Pool) : Prop :=
  (p.backend i).ejectedUntil = none → ∀ since, (p.backend i).overSince = some since →
    ∃ pre mid, ops = pre ++ .poll since :: mid ∧ Window cfg p₀ i since pre mid ∧
      (p.backend i).ewmaSamples - (p.backend i).overSinceSamples ≤ samplesIn i mid

theorem exec_window (p₀ : Pool) (since : Nat) (pre mid : List Op) :
    poolSystem.exec p₀ (pre ++ .poll since :: mid) =
      poolSystem.exec ((poolSystem.exec p₀ pre).poll since) mid := by
  rw [System.exec_append]
  rfl

/-- A window goes on over a call that is no poll, or a poll that finds the
backend over the line. -/
theorem Window.concat {cfg : EwmaConfig} {p₀ : Pool} {i since : Nat} {pre mid : List Op}
    (h : Window cfg p₀ i since pre mid) {op : Op}
    (hop : PollsOn cfg i (poolSystem.exec p₀ (pre ++ .poll since :: mid)) op) :
    Window cfg p₀ i since pre (mid ++ [op]) := by
  refine ⟨h.opened, ?_⟩
  rw [System.always_concat_iff, ← exec_window]
  exact ⟨h.unbroken, hop⟩

theorem samplesIn_append (i : Nat) (xs ys : List Op) :
    samplesIn i (xs ++ ys) = samplesIn i xs + samplesIn i ys :=
  List.countP_append

/-- A call that goes on with the window of a backend keeps the invariant. -/
theorem InWindow.concat {cfg : EwmaConfig} {p₀ : Pool} {i : Nat} {ops : List Op} {op : Op}
    (h : InWindow cfg p₀ i ops (poolSystem.exec p₀ ops))
    (hop : PollsOn cfg i (poolSystem.exec p₀ ops) op) {b b' : Backend}
    (hb : (poolSystem.exec p₀ ops).backend i = b) (hu : b.ejectedUntil = none) {since : Nat}
    (hs : b.overSince = some since)
    (hsnap : b'.overSinceSamples = b.overSinceSamples)
    (hcount : b'.ewmaSamples ≤ b.ewmaSamples + samplesIn i [op]) :
    ∃ pre mid, ops ++ [op] = pre ++ .poll since :: mid ∧ Window cfg p₀ i since pre mid ∧
      b'.ewmaSamples - b'.overSinceSamples ≤ samplesIn i mid := by
  subst hb
  obtain ⟨pre, mid, heq, hwin, hle⟩ := h hu since hs
  refine ⟨pre, mid ++ [op], by rw [heq]; simp, ?_, ?_⟩
  · rw [heq] at hop
    exact hwin.concat hop
  · rw [samplesIn_append, hsnap]
    omega

/-- The step lemma.  A poll is the only call that touches a window: it opens
one, goes on with it, or closes it. -/
theorem inWindow_apply {cfg : EwmaConfig} {p₀ : Pool} {i : Nat} {ops : List Op} {op : Op}
    (he : (poolSystem.exec p₀ ops).ewma = some cfg)
    (hok : (poolSystem.exec p₀ ops).Accepts op)
    (hstale : NoStaleWindow cfg i (poolSystem.exec p₀ ops) op)
    (h : InWindow cfg p₀ i ops (poolSystem.exec p₀ ops)) :
    InWindow cfg p₀ i (ops ++ [op]) ((poolSystem.exec p₀ ops).apply op) := by
  intro hu since hs
  have hsamples := (poolSystem.exec p₀ ops).ewmaSamples_effect_le op i
    ((poolSystem.exec p₀ ops).backend i)
  rcases backend_apply_cases hok i with ⟨_, heq⟩ | ⟨_, health, bcfg, hb⟩
  · rw [heq] at hu hs ⊢
    rcases (poolSystem.exec p₀ ops).effect_ejection_cases op i
        ((poolSystem.exec p₀ ops).backend i) with
      ⟨now, rfl⟩ | ⟨htime, hkeep⟩ | ⟨now, rfl, _, harm⟩
    · simp only [effect, he] at hu hs ⊢
      obtain ⟨hact, ho, hwin⟩ := Backend.overSince_poll hu hs
      have hover : OverAt cfg i (poolSystem.exec p₀ ops) now :=
        (overAt_iff he i now).mpr ⟨hact, ho⟩
      rcases hwin with ⟨rfl, hsnap⟩ | ⟨hs', hsnap⟩
      · -- The window opens at this poll.
        refine ⟨ops, [], rfl, ⟨hover, trivial⟩, ?_⟩
        simp [hsnap]
      · -- The window goes on: no ejection interrupted it.
        have hnone : ((poolSystem.exec p₀ ops).backend i).ejectedUntil = none := by
          by_contra hne
          exact hstale now rfl ⟨hne, by simp [hs'], hover⟩
        have hon : PollsOn cfg i (poolSystem.exec p₀ ops) (.poll now) := by
          intro t ht
          obtain rfl := Option.some.inj ht
          exact ⟨hover, hnone⟩
        simp only [effect, he] at hsamples
        exact h.concat hon rfl hnone hs' hsnap hsamples
    · have hu' := (congrArg Backend.Ejection.ejectedUntil hkeep).symm.trans hu
      have hs' := (congrArg Backend.Ejection.overSince hkeep).symm.trans hs
      exact h.concat (by simp [PollsOn, htime]) rfl hu' hs'
        (congrArg Backend.Ejection.overSinceSamples hkeep) hsamples
    · exact absurd ((congrArg Backend.Ejection.ejectedUntil harm).symm.trans hu) (by simp)
  · rw [hb] at hs
    exact absurd hs (by simp [Backend.new])

/-- The run lemma: without stale windows, every window that is open at the end
of a run is a window of the run. -/
theorem inWindow_exec {cfg : EwmaConfig} {p₀ : Pool} (he : p₀.ewma = some cfg) {i : Nat}
    (hs : (p₀.backend i).overSince = none) {ops : List Op} (hv : poolSystem.Valid p₀ ops)
    (hstale : poolSystem.Always
      (fun p op => NoStaleWindow cfg i p op ∧ ∀ c, op ≠ .enableEwma c) p₀ ops) :
    (poolSystem.exec p₀ ops).ewma = some cfg ∧
      InWindow cfg p₀ i ops (poolSystem.exec p₀ ops) := by
  refine System.Always.history (M := poolSystem)
    (I := fun ops p => p.ewma = some cfg ∧ InWindow cfg p₀ i ops p) ?_ ?_
    (System.Always.and hv hstale)
  · refine ⟨he, fun _ since h => ?_⟩
    rw [hs] at h
    exact absurd h (by simp)
  · intro ops op _ hop hinv
    obtain ⟨hok, hns, hfix⟩ := hop
    obtain ⟨hewma, hwin⟩ := hinv
    exact ⟨(ewma_apply _ op hfix).trans hewma, inWindow_apply hewma hok hns hwin⟩

/-! ## The promise of the comment -/

/-- A window reaches back to after every poll that found the backend ejected. -/
theorem Window.samplesIn_le {cfg : EwmaConfig} {p₀ : Pool} {i since : Nat}
    {pre mid : List Op} (h : Window cfg p₀ i since pre mid) {a b : List Op} {r : Nat}
    (heq : pre ++ .poll since :: mid = a ++ .poll r :: b)
    (hu : ((poolSystem.exec p₀ a).backend i).ejectedUntil ≠ none) :
    samplesIn i mid ≤ samplesIn i b := by
  rcases List.append_eq_append_iff.mp heq with ⟨c, ha, hc⟩ | ⟨c, hpre, hc⟩
  · cases c with
    | nil =>
      have hb : mid = b := by simpa using (List.cons.inj hc).2
      rw [hb]
    | cons op c =>
      -- The poll at `r` is inside the window, and it found no ejection.
      obtain ⟨rfl, hmid⟩ := List.cons.inj hc
      have hmid : mid = c ++ .poll r :: b := hmid
      have hall := h.unbroken
      rw [hmid, System.always_append_iff, ← exec_window, ← ha] at hall
      exact absurd (hall.2.1 r rfl).2 hu
  · have hb : b = c.tail ++ (if c = [] then mid else .poll since :: mid) := by
      cases c with
      | nil => simpa using (List.cons.inj hc).2
      | cons op c => simpa using (List.cons.inj hc).2
    rw [hb, samplesIn_append]
    split_ifs
    · exact Nat.le_add_left _ _
    · exact Nat.le_trans (Nat.le_of_eq (by simp [samplesIn, foldsLatency]))
        (Nat.le_add_left _ _)

/-- In every run that meets no stale window of a backend, with the latency layer
on from the start, each latency ejection of the backend is justified, and since
the last poll that found it ejected enough samples have arrived. -/
theorem latency_ejection_justified {cfg : EwmaConfig} {p₀ : Pool}
    (h₀ : ∃ name strategy health, p₀ = (Pool.new name strategy health).enableEwma cfg)
    {ops : List Op} (hv : poolSystem.Valid p₀ ops)
    (hfix : ∀ op ∈ ops, ∀ c, op ≠ .enableEwma c) {i : Nat}
    (hstale : poolSystem.Always (NoStaleWindow cfg i) p₀ ops) :
    ∀ pre t post, ops = pre ++ .poll t :: post →
      ((poolSystem.exec p₀ pre).backend i).ewmaEjections <
        (((poolSystem.exec p₀ pre).poll t).backend i).ewmaEjections →
      Justified cfg p₀ pre i t ∧
      ((poolSystem.exec p₀ pre).backend i).ejectedUntil = none ∧
      ∀ a r b, pre = a ++ .poll r :: b →
        ((poolSystem.exec p₀ a).backend i).ejectedUntil ≠ none →
        cfg.minSamples ≤ samplesIn i b := by
  intro pre t post heq hcount
  subst heq
  have hrun := System.Always.and hstale (System.Always.of_forall p₀ hfix)
  obtain ⟨hpre, hlast, _⟩ := (System.always_append_iff _ _ _ _ _).mp hrun
  have hews : p₀.ewma = some cfg ∧ (p₀.backend i).overSince = none := by
    obtain ⟨name, strategy, health, rfl⟩ := h₀
    exact ⟨rfl, rfl⟩
  obtain ⟨he, hwin⟩ := inWindow_exec hews.1 hews.2 hv.left hpre
  -- The poll that ejects found a full window.
  have hi : i < (poolSystem.exec p₀ pre).backends.length := by
    by_contra hge
    have hnone : (poolSystem.exec p₀ pre).backends[i]? = none :=
      List.getElem?_eq_none (Nat.le_of_not_lt hge)
    simp [backend, Pool.poll, List.getD_eq_getElem?_getD, hnone] at hcount
  have heff : ((poolSystem.exec p₀ pre).poll t).backend i =
      ((poolSystem.exec p₀ pre).backend i).poll (some cfg)
        (poolSystem.exec p₀ pre).threshold t := by
    rw [← he]
    exact backend_apply_of_lt hi (.poll t)
  rw [heff] at hcount
  obtain ⟨since, hact, ho, hs, hfull⟩ := Backend.windowFull_of_ewmaEjections hcount
  have hover : OverAt cfg i (poolSystem.exec p₀ pre) t := (overAt_iff he i t).mpr ⟨hact, ho⟩
  have hnone : ((poolSystem.exec p₀ pre).backend i).ejectedUntil = none := by
    by_contra hne
    exact hlast.1 t rfl ⟨hne, by simp [hs], hover⟩
  obtain ⟨hlen, hfresh⟩ : cfg.windowMs ≤ t - since ∧ cfg.minSamples ≤
      ((poolSystem.exec p₀ pre).backend i).ewmaSamples -
        ((poolSystem.exec p₀ pre).backend i).overSinceSamples := by
    simpa [Backend.windowFull] using hfull
  obtain ⟨before, mid, heq, hw, hle⟩ := hwin hnone since hs
  refine ⟨⟨before, since, mid, heq, hlen, ?_, Nat.le_trans hfresh hle⟩, hnone, ?_⟩
  · rw [List.cons_append, System.always_cons, System.always_concat_iff]
    refine ⟨?_, hw.unbroken.mono (fun p op hp now hnow => (hp now hnow).1), ?_⟩
    · intro now hnow
      obtain rfl := Option.some.inj hnow
      exact hw.opened
    · intro now hnow
      obtain rfl := Option.some.inj hnow
      rw [heq, exec_window] at hover
      exact hover
  · intro a r b ha hu
    exact Nat.le_trans hfresh (Nat.le_trans hle (hw.samplesIn_le (heq.symm.trans ha) hu))

/-! ## A window that an ejection interrupts -/

/-- `Justified` by the position of the poll at `s`. -/
theorem Justified.position {cfg : EwmaConfig} {p₀ : Pool} {ops : List Op} {i t : Nat}
    (h : Justified cfg p₀ ops i t) :
    ∃ k < ops.length, ∃ s ∈ (ops[k]?).bind Op.pollTime, cfg.windowMs ≤ t - s ∧
      poolSystem.Always (PollsOver cfg i) (poolSystem.exec p₀ (ops.take k))
        (ops.drop k ++ [.poll t]) ∧
      cfg.minSamples ≤ samplesIn i (ops.drop (k + 1)) := by
  obtain ⟨pre, s, mid, rfl, hlen, hall, hcount⟩ := h
  exact ⟨pre.length, by simp, s, by simp [Op.pollTime], hlen, by simpa using hall,
    by simpa using hcount⟩

/-- A window of 10 ms and one sample, with averages that are the last sample. -/
def shortWindow : EwmaConfig where
  alphaMilli := 1000
  factorMilli := 1000
  windowMs := 10
  minSamples := 1
  ejectionMs := 5
  reinstatePercent := 25
  rampWindowMs := 10

/-- A new pool with a short window, that ejects after one failure for 10 ms. -/
def shortWindowPool : Pool :=
  (Pool.new "api" .roundRobin
    { HealthConfig.default with
      outlierConsecutiveFailures := 1
      ejectionBaseMs := 10 }).enableEwma shortWindow

/-- A slow and a fast backend.  The poll at 0 opens a window of the slow one, and
one more slow sample arrives. -/
def slowCalls : List Op :=
  [.addBackend (.new "slow" 1 .default .default),
    .addBackend (.new "fast" 1 .default .default),
    .recordSuccessLatency 0 0 1000, .recordSuccessLatency 1 0 1, .poll 0,
    .recordSuccessLatency 0 1 1000]

theorem valid_slowCalls : poolSystem.Valid shortWindowPool slowCalls :=
  ⟨Backend.fresh_new _ _ _ _, Backend.fresh_new _ _ _ _, Nat.zero_lt_succ 1,
    Nat.one_lt_succ_succ 0, trivial, Nat.zero_lt_succ 1, trivial⟩

/-- The poll at 12 ejects the slow backend for its latency, and justly so. -/
theorem latency_ejection_justified_slow :
    Justified shortWindow shortWindowPool slowCalls 0 12 := by
  have hv : poolSystem.Valid shortWindowPool (slowCalls ++ [.poll 12]) :=
    (System.valid_append_iff _ _ _ _).mpr ⟨valid_slowCalls, trivial, trivial⟩
  exact (latency_ejection_justified ⟨"api", .roundRobin, _, rfl⟩ hv (by simp [slowCalls])
    (by decide) slowCalls 12 [] rfl (by decide)).1

/-- The slow calls, and then a failure at 2 that ejects the slow backend until
12.  The poll at 5 finds it ejected. -/
def interruptedCalls : List Op := slowCalls ++ [.recordFailure 0 2, .poll 5]

/-- The poll at 12 reinstates the slow backend and ejects it again at once.  No
sample has arrived since the ejection, and no poll a window ago had been
followed only by polls that found the backend over the line. -/
theorem latency_ejection_stale :
    poolSystem.Valid shortWindowPool (interruptedCalls ++ [.poll 12]) ∧
    Nondecreasing Op.time (interruptedCalls ++ [.poll 12]) ∧
    1 ≤ shortWindow.minSamples ∧
    ((poolSystem.exec shortWindowPool interruptedCalls).backend 0).ejectedUntil = some 12 ∧
    ((poolSystem.exec shortWindowPool interruptedCalls).backend 0).ewmaEjections <
      (((poolSystem.exec shortWindowPool interruptedCalls).poll 12).backend 0).ewmaEjections ∧
    ¬ Justified shortWindow shortWindowPool interruptedCalls 0 12 := by
  refine ⟨?_, by decide, by decide, by decide, by decide, ?_⟩
  · rw [interruptedCalls, List.append_assoc, System.valid_append_iff]
    exact ⟨valid_slowCalls, Nat.zero_lt_succ 1, trivial, trivial, trivial⟩
  · intro h
    exact absurd h.position (by decide)

end Pool

end Echofront
