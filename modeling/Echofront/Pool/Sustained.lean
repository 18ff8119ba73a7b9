import Echofront.Pool.Average

/-!
# Sustained latency

A backend that every poll of a window finds over the line, with enough fresh samples, is
ejected by one of these polls.  Its own window may be open since before the first of
them, and an ejection for failures may come and go between two of them.

* `poll_over_cases` is the step lemma of a poll that finds the backend over the line.
* `Tracked` is the invariant of a run: an open window is as old as a poll of the run, and
  the sample count is exact.
* `ejects_of_over` is the induction over the polls of a window.

`sustained_latency_ejects` puts these together.
-/

namespace Echofront

open Lib

namespace Pool

/-- The poll at `now` ejects backend `i` for its latency. -/
def EjectsAt (cfg : EwmaConfig) (i : Nat) (p : Pool) (now : Nat) : Prop :=
  ((p.poll now).backend i).ewmaEjections = (p.backend i).ewmaEjections + 1 ∧
    ((p.poll now).backend i).ejectedUntil = some (saturatingAdd64 now cfg.ejectionMs)

/-- Only a backend of the pool can be over the line. -/
theorem OverAt.lt_length {cfg : EwmaConfig} {i : Nat} {p : Pool} {now : Nat}
    (h : OverAt cfg i p now) : i < p.backends.length := by
  obtain ⟨_, _, e, he, _⟩ := h
  exact lt_length_of_field_ne Backend.latencyEwmaMilli (by rw [he]; exact Option.some_ne_none e)

/-- A poll that finds a backend over the line opens a window, goes on with one, or
ejects the backend at the end of one. -/
theorem poll_over_cases {cfg : EwmaConfig} {p : Pool} (he : p.ewma = some cfg) {i now : Nat}
    (h : OverAt cfg i p now) :
    ((p.backend i).overSince = none ∧
      ((p.poll now).backend i).overSince = some now ∧
      ((p.poll now).backend i).overSinceSamples = (p.backend i).ewmaSamples) ∨
    (∃ since, (p.backend i).overSince = some since ∧
      (p.backend i).windowFull cfg now since = false ∧
      ((p.poll now).backend i).overSince = some since ∧
      ((p.poll now).backend i).overSinceSamples = (p.backend i).overSinceSamples) ∨
    (∃ since, (p.backend i).overSince = some since ∧
      (p.backend i).windowFull cfg now since = true ∧ EjectsAt cfg i p now) := by
  obtain ⟨hact, ho⟩ := (overAt_iff he i now).mp h
  have heff : (p.poll now).backend i = (p.backend i).poll (some cfg) p.threshold now := by
    rw [← he]
    exact backend_apply_of_lt h.lt_length (.poll now)
  unfold EjectsAt
  rw [heff]
  rcases Backend.poll_some_cases cfg p.threshold now (p.backend i) with
    ⟨hej, _⟩ | ⟨_, hno, _⟩ | ⟨_, _, hs, hk⟩ | ⟨since, _, _, hs, hw, hk⟩ |
      ⟨since, _, _, hs, hw, hk⟩
  · exact absurd (hact.symm.trans hej) (by decide)
  · exact absurd (ho.symm.trans hno) (by decide)
  · exact Or.inl ⟨hs, congrArg Backend.Ejection.overSince hk,
      congrArg Backend.Ejection.overSinceSamples hk⟩
  · exact Or.inr (Or.inl ⟨since, hs, hw, (congrArg Backend.Ejection.overSince hk).trans hs,
      congrArg Backend.Ejection.overSinceSamples hk⟩)
  · exact Or.inr (Or.inr ⟨since, hs, hw, congrArg Backend.Ejection.ewmaEjections hk,
      congrArg Backend.Ejection.ejectedUntil hk⟩)

/-- Only a poll touches a window. -/
theorem window_apply_of_not_poll {p : Pool} {op : Op} (h : op.pollTime = none) {i : Nat}
    (hi : i < p.backends.length) :
    ((p.apply op).backend i).overSince = (p.backend i).overSince ∧
      ((p.apply op).backend i).overSinceSamples = (p.backend i).overSinceSamples := by
  rw [backend_apply_of_lt hi]
  rcases p.effect_ejection_cases op i (p.backend i) with
    ⟨now, rfl⟩ | ⟨_, hk⟩ | ⟨now, rfl, _, hk⟩
  · exact absurd h (by simp [Op.pollTime])
  · exact ⟨congrArg Backend.Ejection.overSince hk,
      congrArg Backend.Ejection.overSinceSamples hk⟩
  · exact ⟨congrArg Backend.Ejection.overSince hk,
      congrArg Backend.Ejection.overSinceSamples hk⟩

/-- With the latency layer on, a call that folds a sample counts it. -/
theorem ewmaSamples_apply {cfg : EwmaConfig} {p : Pool} (he : p.ewma = some cfg) {op : Op}
    (hok : p.Accepts op) (i : Nat) :
    ((p.apply op).backend i).ewmaSamples =
      if foldsLatency i op then incr32 (p.backend i).ewmaSamples
      else (p.backend i).ewmaSamples := by
  have hfolds : latencySample i p op ≠ none ↔ foldsLatency i op = true := by
    cases op with
    | recordSuccessLatency idx now latencyMs =>
      simp only [latencySample, foldsLatency, he, beq_iff_eq]
      split_ifs with hidx <;> simp [hidx]
    | _ => simp [latencySample, foldsLatency]
  rcases average_apply_cases hok i with ⟨hs, _, heq⟩ | ⟨c, latencyMs, hs, _, heq⟩
  · rw [if_neg (fun h => hfolds.mpr h hs)]
    exact heq
  · rw [if_pos (hfolds.mp (by simp [hs]))]
    exact heq

theorem samplesIn_singleton (i : Nat) (op : Op) :
    samplesIn i [op] = if foldsLatency i op then 1 else 0 := by
  simp [samplesIn, List.countP_singleton]

/-- The sample count is exact while there are fewer than `2 ^ 32` samples. -/
theorem ewmaSamples_apply_eq {cfg : EwmaConfig} {p : Pool} (he : p.ewma = some cfg) {op : Op}
    (hok : p.Accepts op) {i : Nat}
    (hlt : (p.backend i).ewmaSamples + samplesIn i [op] < 2 ^ 32) :
    ((p.apply op).backend i).ewmaSamples = (p.backend i).ewmaSamples + samplesIn i [op] := by
  rw [ewmaSamples_apply he hok]
  rw [samplesIn_singleton] at hlt ⊢
  split_ifs at hlt ⊢
  · exact incr32_eq (by unfold u32Max; omega)
  · rfl

/-! ## The window of a run -/

/-- What a run makes of the sample count of backend `i` and of its open window. -/
structure Tracked (i : Nat) (ops : List Op) (p : Pool) : Prop where
  samples : samplesIn i ops < 2 ^ 32 → (p.backend i).ewmaSamples = samplesIn i ops
  opened : ∀ since, (p.backend i).overSince = some since → .poll since ∈ ops
  snapshot : samplesIn i ops < 2 ^ 32 → ∀ since, (p.backend i).overSince = some since →
    (p.backend i).overSinceSamples ≤ (p.backend i).ewmaSamples

/-- A window that is open after a call was open before it, or the call is a poll that
opens it. -/
theorem overSince_apply {p : Pool} {op : Op} (hok : p.Accepts op) {i since : Nat}
    (h : ((p.apply op).backend i).overSince = some since) :
    (op = .poll since ∧ (p.backend i).overSince = none ∧
      ((p.apply op).backend i).overSinceSamples = (p.backend i).ewmaSamples) ∨
    ((p.backend i).overSince = some since ∧
      ((p.apply op).backend i).overSinceSamples = (p.backend i).overSinceSamples) := by
  rcases backend_apply_cases hok i with ⟨hi, heq⟩ | ⟨_, health, bcfg, hb⟩
  · cases hpoll : op.pollTime with
    | none =>
      obtain ⟨hsince, hsnap⟩ := window_apply_of_not_poll hpoll hi
      exact Or.inr ⟨hsince.symm.trans h, hsnap⟩
    | some now =>
      obtain rfl := Op.eq_poll_of_pollTime hpoll
      have heff : (p.apply (.poll now)).backend i =
          (p.backend i).poll p.ewma p.threshold now := heq
      rw [heff] at h ⊢
      change ((p.backend i).poll p.ewma p.threshold now).ejection.overSince = _ at h
      change (_ ∧ _ ∧ ((p.backend i).poll p.ewma p.threshold now).ejection.overSinceSamples = _) ∨
        (_ ∧ ((p.backend i).poll p.ewma p.threshold now).ejection.overSinceSamples = _)
      cases he : p.ewma with
      | none =>
        rw [he, Backend.poll_none_ejection] at h
        rw [Backend.poll_none_ejection]
        exact Or.inr ⟨h, rfl⟩
      | some cfg =>
        rw [he] at h
        rcases Backend.poll_some_cases cfg p.threshold now (p.backend i) with
          ⟨_, hk⟩ | ⟨_, _, hk⟩ | ⟨_, _, hs, hk⟩ | ⟨_, _, _, _, _, hk⟩ | ⟨_, _, _, _, _, hk⟩ <;>
          rw [hk] at h ⊢
        · exact Or.inr ⟨h, rfl⟩
        · exact absurd h (by simp)
        · obtain rfl := Option.some.inj h
          exact Or.inl ⟨rfl, hs, rfl⟩
        · exact Or.inr ⟨h, rfl⟩
        · exact absurd h (by simp)
  · rw [hb] at h
    exact absurd h (by simp [Backend.new])

/-- The run lemma. -/
theorem tracked_exec {cfg : EwmaConfig} {p₀ : Pool}
    (h₀ : ∃ name strategy health, p₀ = (Pool.new name strategy health).enableEwma cfg)
    {ops : List Op} (hv : poolSystem.Valid p₀ ops)
    (hfix : ∀ op ∈ ops, ∀ c, op ≠ .enableEwma c) (i : Nat) :
    (poolSystem.exec p₀ ops).ewma = some cfg ∧ Tracked i ops (poolSystem.exec p₀ ops) := by
  refine System.Always.history (M := poolSystem)
    (I := fun ops p => p.ewma = some cfg ∧ Tracked i ops p) ?_ ?_
    (System.Always.and hv (System.Always.of_forall p₀ hfix))
  · obtain ⟨name, strategy, health, rfl⟩ := h₀
    have hb : ((Pool.new name strategy health).enableEwma cfg).backend i = default := rfl
    exact ⟨rfl, ⟨fun _ => by rw [hb]; rfl, fun since h => by rw [hb] at h; simp [default,
      Backend.new] at h, fun _ since h => by rw [hb] at h; simp [default, Backend.new] at h⟩⟩
  · intro ops op _ hop hinv
    obtain ⟨hok, hne⟩ := hop
    obtain ⟨he, hsamples, hopened, hsnapshot⟩ := hinv
    generalize poolSystem.exec p₀ ops = p at hok he hsamples hopened hsnapshot ⊢
    have hcount : samplesIn i (ops ++ [op]) < 2 ^ 32 →
        (p.backend i).ewmaSamples = samplesIn i ops ∧
        ((p.apply op).backend i).ewmaSamples =
          (p.backend i).ewmaSamples + samplesIn i [op] := by
      intro hlt
      rw [samplesIn_append] at hlt
      have hold := hsamples (by omega)
      exact ⟨hold, ewmaSamples_apply_eq he hok (by rw [hold]; exact hlt)⟩
    refine ⟨(ewma_apply p op hne).trans he, ⟨?_, ?_, ?_⟩⟩
    · intro hlt
      obtain ⟨hold, hnew⟩ := hcount hlt
      exact hnew.trans (by rw [hold, samplesIn_append])
    · intro since hs
      rcases overSince_apply hok hs with ⟨rfl, _⟩ | ⟨hs', _⟩
      · simp
      · exact List.mem_append_left _ (hopened since hs')
    · intro hlt since hs
      obtain ⟨_, hnew⟩ := hcount hlt
      rw [samplesIn_append] at hlt
      show ((p.apply op).backend i).overSinceSamples ≤ ((p.apply op).backend i).ewmaSamples
      rw [hnew]
      rcases overSince_apply hok hs with ⟨_, _, hsnap⟩ | ⟨hs', hsnap⟩
      · rw [hsnap]
        exact Nat.le_add_right _ _
      · rw [hsnap]
        exact (hsnapshot (by omega) since hs').trans (Nat.le_add_right _ _)

/-! ## The polls of a window -/

/-- A backend with an open window is ejected by one of the polls that find it over the
line, when the last of them comes a window later and enough samples arrive before it. -/
theorem ejects_of_over {cfg : EwmaConfig} {i since t : Nat} {p : Pool} {mid : List Op}
    (he : p.ewma = some cfg) (hi : i < p.backends.length)
    (hv : poolSystem.Valid p (mid ++ [Op.poll t])) (hfix : ∀ op ∈ mid, ∀ c, op ≠ .enableEwma c)
    (hover : poolSystem.Always (PollsOver cfg i) p (mid ++ [Op.poll t]))
    (hs : (p.backend i).overSince = some since) (hlen : cfg.windowMs ≤ t - since)
    (hlt : (p.backend i).ewmaSamples + samplesIn i mid < 2 ^ 32)
    (hfresh : cfg.minSamples ≤
      (p.backend i).ewmaSamples + samplesIn i mid - (p.backend i).overSinceSamples) :
    ∃ a u b, mid ++ [Op.poll t] = a ++ Op.poll u :: b ∧
      EjectsAt cfg i (poolSystem.exec p a) u := by
  induction mid generalizing p with
  | nil =>
    have hfull : (p.backend i).windowFull cfg t since = true := by
      simpa [Backend.windowFull, samplesIn] using And.intro hlen hfresh
    rcases poll_over_cases he (hover.1 t rfl) with
      ⟨hnone, _⟩ | ⟨since', hs', hnot, _⟩ | ⟨_, _, _, hej⟩
    · exact absurd (hs.symm.trans hnone) (by simp)
    · obtain rfl := Option.some.inj (hs.symm.trans hs')
      exact absurd (hfull.symm.trans hnot) (by decide)
    · exact ⟨[], t, [], rfl, hej⟩
  | cons op mid ih =>
    have hfix' : ∀ o ∈ mid, ∀ c, o ≠ .enableEwma c :=
      fun o ho => hfix o (List.mem_cons_of_mem _ ho)
    have hewma : (p.apply op).ewma = some cfg :=
      (ewma_apply p op (hfix op List.mem_cons_self)).trans he
    have hsum : samplesIn i (op :: mid) = samplesIn i [op] + samplesIn i mid :=
      samplesIn_append i [op] mid
    rw [hsum] at hlt hfresh
    have hsamples := ewmaSamples_apply_eq he hv.1
      (Nat.lt_of_le_of_lt (Nat.add_le_add_left (Nat.le_add_right _ _) _) hlt)
    -- the call ejects the backend, or its window goes on
    have hstep : (∃ u, op = Op.poll u ∧ EjectsAt cfg i p u) ∨
        (((p.apply op).backend i).overSince = some since ∧
          ((p.apply op).backend i).overSinceSamples = (p.backend i).overSinceSamples) := by
      cases hpoll : op.pollTime with
      | none =>
        obtain ⟨hsince, hsnap⟩ := window_apply_of_not_poll hpoll hi
        exact Or.inr ⟨hsince.trans hs, hsnap⟩
      | some u =>
        obtain rfl := Op.eq_poll_of_pollTime hpoll
        rcases poll_over_cases he (hover.1 u rfl) with
          ⟨hnone, _⟩ | ⟨since', hs', _, hsince, hsnap⟩ | ⟨_, _, _, hej⟩
        · exact absurd (hs.symm.trans hnone) (by simp)
        · exact Or.inr ⟨hsince.trans (hs'.symm.trans hs), hsnap⟩
        · exact Or.inl ⟨u, rfl, hej⟩
    rcases hstep with ⟨u, rfl, hej⟩ | ⟨hs', hsnap⟩
    · exact ⟨[], u, mid ++ [Op.poll t], rfl, hej⟩
    · obtain ⟨a, u, b, heq, hej⟩ := ih hewma (Nat.lt_of_lt_of_le hi (p.length_le_apply op))
        hv.2 hfix' hover.2 hs' (by rw [hsamples]; omega) (by rw [hsamples, hsnap]; omega)
      exact ⟨op :: a, u, b, by rw [List.cons_append, heq]; rfl, hej⟩

/-- The same for a window that the first of the polls opens, or that is open before
it. -/
theorem ejects_of_tracked {cfg : EwmaConfig} {i s t : Nat} {p : Pool} {mid : List Op}
    (he : p.ewma = some cfg) (hv : poolSystem.Valid p (Op.poll s :: mid ++ [Op.poll t]))
    (hfix : ∀ op ∈ mid, ∀ c, op ≠ .enableEwma c)
    (hover : poolSystem.Always (PollsOver cfg i) p (Op.poll s :: mid ++ [Op.poll t]))
    (hsince : ∀ since, (p.backend i).overSince = some since → since ≤ s ∧
      (p.backend i).overSinceSamples ≤ (p.backend i).ewmaSamples)
    (hlen : cfg.windowMs ≤ t - s)
    (hlt : (p.backend i).ewmaSamples + samplesIn i mid < 2 ^ 32)
    (hfresh : cfg.minSamples ≤ samplesIn i mid) :
    ∃ a u b, Op.poll s :: mid ++ [Op.poll t] = a ++ Op.poll u :: b ∧
      EjectsAt cfg i (poolSystem.exec p a) u := by
  have hfirst : OverAt cfg i p s := hover.1 s rfl
  have hi := hfirst.lt_length
  have hsame : ((p.poll s).backend i).ewmaSamples = (p.backend i).ewmaSamples := by
    have heff : (p.poll s).backend i = (p.backend i).poll p.ewma p.threshold s :=
      backend_apply_of_lt hi (Op.poll s)
    rw [heff, Backend.poll_ewmaSamples]
  -- after the poll at `s` the window is open, not since later, with no newer snapshot
  have hopen : EjectsAt cfg i p s ∨ ∃ since, ((p.poll s).backend i).overSince = some since ∧
      since ≤ s ∧ ((p.poll s).backend i).overSinceSamples ≤ (p.backend i).ewmaSamples := by
    rcases poll_over_cases he hfirst with
      ⟨_, hs, hsnap⟩ | ⟨since, hs', _, hs, hsnap⟩ | ⟨_, _, _, hej⟩
    · exact Or.inr ⟨s, hs, le_refl s, hsnap.le⟩
    · obtain ⟨hle, hle'⟩ := hsince since hs'
      exact Or.inr ⟨since, hs, hle, hsnap.trans_le hle'⟩
    · exact Or.inl hej
  rcases hopen with hej | ⟨since, hs, hle, hsnap⟩
  · exact ⟨[], s, mid ++ [Op.poll t], rfl, hej⟩
  · obtain ⟨a, u, b, heq, hej⟩ := ejects_of_over (p := p.poll s) he
      (Nat.lt_of_lt_of_le hi (p.length_le_apply (Op.poll s))) hv.2 hfix hover.2 hs (by omega)
      (by rw [hsame]; exact hlt) (by rw [hsame]; omega)
    exact ⟨Op.poll s :: a, u, b, by rw [List.cons_append, heq]; rfl, hej⟩

/-- A backend is not available before its ejection expires, whatever calls come before
that. -/
theorem isAvailable_exec_of_ejected {p : Pool} {i u : Nat}
    (hu : (p.backend i).ejectedUntil = some u) {ops : List Op} (hv : poolSystem.Valid p ops)
    (ht : ∀ op ∈ ops, ∀ t, op.time = some t → t < u) {T : Nat} (hT : T < u) :
    ((poolSystem.exec p ops).backend i).isAvailable T = false := by
  have hsame := congrArg Backend.Ejection.ejectedUntil (ejection_exec_of_active hu hv ht)
  have hu' : ((poolSystem.exec p ops).backend i).ejectedUntil = some u := hsame.trans hu
  simp [Backend.isAvailable, Backend.isEjected, hu', hT]

/-- Sustained latency outliers are always ejected, in every run with the latency layer on
from the start, times that do not go back and fewer than `2 ^ 32` samples of the backend.
If every poll from one at `s` to one at `t` finds the backend over the line, a window
lies between the two, and enough samples arrive between them, then one of these polls
ejects it: its latency ejections grow by one, and from this poll on it is not available
before the ejection expires. -/
theorem sustained_latency_ejects {cfg : EwmaConfig} {p₀ : Pool}
    (h₀ : ∃ name strategy health, p₀ = (Pool.new name strategy health).enableEwma cfg)
    {pre mid post : List Op} {i s t : Nat}
    (hv : poolSystem.Valid p₀ (pre ++ (Op.poll s :: mid ++ [Op.poll t]) ++ post))
    (hfix : ∀ op ∈ pre ++ (Op.poll s :: mid ++ [Op.poll t]) ++ post, ∀ c, op ≠ .enableEwma c)
    (hn : Nondecreasing Op.time (pre ++ (Op.poll s :: mid ++ [Op.poll t]) ++ post))
    (hlt : samplesIn i (pre ++ (Op.poll s :: mid ++ [Op.poll t]) ++ post) < 2 ^ 32)
    (hover : poolSystem.Always (PollsOver cfg i) (poolSystem.exec p₀ pre)
      (Op.poll s :: mid ++ [Op.poll t]))
    (hlen : cfg.windowMs ≤ t - s) (hfresh : cfg.minSamples ≤ samplesIn i mid) :
    ∃ a u b, Op.poll s :: mid ++ [Op.poll t] = a ++ Op.poll u :: b ∧
      ((poolSystem.exec p₀ (pre ++ a ++ [Op.poll u])).backend i).ewmaEjections =
        ((poolSystem.exec p₀ (pre ++ a)).backend i).ewmaEjections + 1 ∧
      ∀ c d, b ++ post = c ++ d →
        (∀ op ∈ c, ∀ now, op.time = some now → now < saturatingAdd64 u cfg.ejectionMs) →
        ∀ T < saturatingAdd64 u cfg.ejectionMs,
          ((poolSystem.exec p₀ (pre ++ a ++ [Op.poll u] ++ c)).backend i).isAvailable T =
            false := by
  have hsum : samplesIn i pre + samplesIn i mid ≤
      samplesIn i (pre ++ (Op.poll s :: mid ++ [Op.poll t]) ++ post) := by
    have hcons : samplesIn i (Op.poll s :: mid) = samplesIn i [Op.poll s] + samplesIn i mid :=
      samplesIn_append i [Op.poll s] mid
    rw [samplesIn_append, samplesIn_append, samplesIn_append, hcons]
    omega
  obtain ⟨he, htr⟩ := tracked_exec h₀ hv.left.left (fun op hop => hfix op (by simp [hop])) i
  have hsamples := htr.samples (by omega)
  obtain ⟨a, u, b, heq, hcount, hu⟩ := ejects_of_tracked he hv.left.right
    (fun op hop => hfix op (by simp [hop])) hover
    (fun since hs => ⟨hn.left.le (htr.opened since hs) rfl List.mem_cons_self rfl,
      htr.snapshot (by omega) since hs⟩) hlen (by rw [hsamples]; omega) hfresh
  have hstep : poolSystem.exec p₀ (pre ++ a ++ [Op.poll u]) =
      (poolSystem.exec p₀ (pre ++ a)).poll u := exec_concat _ _ (.poll u)
  rw [← System.exec_append] at hcount hu
  rw [← hstep] at hcount hu
  refine ⟨a, u, b, heq, hcount, fun c d hcd ht T hT => ?_⟩
  have hsplit : pre ++ (Op.poll s :: mid ++ [Op.poll t]) ++ post =
      (pre ++ a ++ [Op.poll u]) ++ (c ++ d) := by
    rw [heq, ← hcd]
    simp
  rw [hsplit] at hv
  rw [System.exec_append]
  exact isAvailable_exec_of_ejected hu hv.right.left ht hT

/-- The slow calls and a poll a window later. -/
theorem sustained_latency_ejects_slow :
    let pre := slowCalls.take 4
    let mid : List Op := [.recordSuccessLatency 0 1 1000]
    ∃ a u b, .poll 0 :: mid ++ [.poll 12] = a ++ .poll u :: b ∧
      ((poolSystem.exec shortWindowPool (pre ++ a ++ [.poll u])).backend 0).ewmaEjections =
        ((poolSystem.exec shortWindowPool (pre ++ a)).backend 0).ewmaEjections + 1 := by
  intro pre mid
  have hcalls : pre ++ (.poll 0 :: mid ++ [.poll 12]) ++ [] = slowCalls ++ [.poll 12] := rfl
  have hv : poolSystem.Valid shortWindowPool (pre ++ (.poll 0 :: mid ++ [.poll 12]) ++ []) := by
    rw [hcalls, System.valid_append_iff]
    exact ⟨valid_slowCalls, trivial, trivial⟩
  obtain ⟨a, u, b, heq, hcount, _⟩ := sustained_latency_ejects (i := 0)
    ⟨"api", .roundRobin, _, rfl⟩ hv (by simp [pre, mid, slowCalls]) (by decide) (by decide)
    (by decide) (by decide) (by decide)
  exact ⟨a, u, b, heq, hcount⟩

end Pool

end Echofront
