import Echofront.Pool.Run

/-!
# Quarantine

A backend is quarantined while its breaker cools down and while it is ejected.
This module says that a quarantine is exact over whole runs of pool calls.

* `breaker_effect_of_cooling` and `ejection_effect_of_active` are the step lemmas:
  no call that comes before the end of a quarantine changes it.
* `tripTime` and `ejectionTime` read the trips and the ejections off a run, and
  `Traced` is the invariant that ties the state of a backend to the last of
  them.
* `ejection_apply` says that a call begins one ejection of a backend or none, and
  `BeginsEjection.counted_once` that an ejection counts once up to its expiry.
* `quarantine_exact` is the statement about runs.

The calls of a run may come in any order: an outcome of a call that began before
a trip or an ejection may be recorded at any moment after it.
-/

namespace Echofront

open Lib

namespace Pool

/-! ## What one call does to a quarantine -/

/-- A call polls a backend, keeps its ejection, or is a failure that arms one. -/
theorem effect_ejection_cases (p : Pool) (op : Op) (i : Nat) (b : Backend) :
    (∃ now, op = .poll now) ∨
    (op.pollTime = none ∧ (p.effect op i b).ejection = b.ejection) ∨
    (∃ now, op = .recordFailure i now ∧ b.armsEjection p.health now = true ∧
      (p.effect op i b).ejection =
        { b.ejection with
          ejectedUntil := some (saturatingAdd64 now p.health.ejectionBaseMs)
          ejections := b.ejections + 1 }) := by
  have hstep := p.effectStep op i b
  generalize p.effect op i b = b' at hstep ⊢
  cases hstep with
  | polled now => exact Or.inl ⟨now, rfl⟩
  | failed now =>
    by_cases ha : b.armsEjection p.health now = true
    · exact Or.inr (Or.inr ⟨now, rfl, ha, by simp only [ha, if_true]; rfl⟩)
    · exact Or.inr (Or.inl ⟨rfl, by simp only [ha]; rfl⟩)
  | other hpoll hne => exact Or.inr (Or.inl ⟨hpoll, rfl⟩)
  | _ => exact Or.inr (Or.inl ⟨rfl, rfl⟩)

/-- An active ejection is not touched before its expiry. -/
theorem ejection_effect_of_active {p : Pool} {op : Op} {i : Nat} {b : Backend} {u : Nat}
    (hb : b.ejectedUntil = some u) (ht : ∀ t, op.time = some t → t < u) :
    (p.effect op i b).ejection = b.ejection := by
  rcases p.effect_ejection_cases op i b with ⟨now, rfl⟩ | ⟨_, h⟩ | ⟨now, rfl, ha, _⟩
  · have hact : b.isEjected now = true := by
      simpa [Backend.isEjected, hb] using ht now rfl
    show (b.poll p.ewma p.threshold now).ejection = b.ejection
    cases p.ewma with
    | none =>
      rw [Backend.poll_none_ejection, if_pos hact]
      rfl
    | some cfg =>
      rcases Backend.poll_some_cases cfg p.threshold now b with
        ⟨_, h⟩ | ⟨h, _⟩ | ⟨h, _⟩ | ⟨_, h, _⟩ | ⟨_, h, _⟩
      · exact h
      all_goals exact absurd (hact.symm.trans h) (by decide)
  · exact h
  · have hact : b.isEjected now = true := by
      simpa [Backend.isEjected, hb] using ht now rfl
    simp [Backend.armsEjection, hact] at ha

/-- A cooling breaker is not touched before its cooldown is over. -/
theorem breaker_effect_of_cooling {p : Pool} {op : Op} {i : Nat} {b : Backend}
    (hb : b.breaker.state = .open)
    (ht : ∀ t, op.time = some t → t - b.breaker.openedAt < b.breaker.cfg.cooldownMs) :
    (p.effect op i b).breaker = b.breaker := by
  rcases p.effect_breaker_cases op i b with h | ⟨e, htime, h⟩
  · exact h
  · rw [h]
    exact CircuitBreaker.apply_of_cooling e hb (ht _ htime)

/-- After a call a backend is the effect of the call on it, or it is new. -/
theorem backend_apply_cases {p : Pool} {op : Op} (hok : p.Accepts op) (i : Nat) :
    (i < p.backends.length ∧ (p.apply op).backend i = p.effect op i (p.backend i)) ∨
    (p.backends.length ≤ i ∧ ((p.apply op).backend i).Fresh) := by
  by_cases hi : i < p.backends.length
  · exact Or.inl ⟨hi, backend_eq_of_getElem? (getElem?_apply (getElem?_eq_backend hi) op)⟩
  · refine Or.inr ⟨Nat.le_of_not_lt hi, ?_⟩
    by_cases hq : i < (p.apply op).backends.length
    · rcases getElem?_apply_cases (getElem?_eq_backend hq) with ⟨b, hb, _⟩ | ⟨hop, _⟩
      · exact absurd (lt_length_of_getElem? hb) hi
      · rw [hop] at hok
        exact hok
    · rw [backend_of_ge (Nat.le_of_not_lt hq)]
      exact ⟨.default, .default, rfl⟩

/-- The configurations that no call changes. -/
theorem health_apply (p : Pool) (op : Op) : (p.apply op).health = p.health := by
  cases op <;> try rfl
  exact (p.selectFrame_select _ _ _).health

theorem ewma_apply (p : Pool) (op : Op) (h : ∀ cfg, op ≠ .enableEwma cfg) :
    (p.apply op).ewma = p.ewma := by
  cases op with
  | select now key exclude => exact (p.selectFrame_select now key exclude).ewma
  | enableEwma cfg => exact absurd rfl (h cfg)
  | _ => rfl

/-! ## A quarantine over a segment of a run -/

theorem length_le_apply (p : Pool) (op : Op) :
    p.backends.length ≤ (p.apply op).backends.length := by
  rw [length_apply]
  exact Nat.le_add_right _ _

theorem length_le_exec (p : Pool) (ops : List Op) :
    p.backends.length ≤ (poolSystem.exec p ops).backends.length := by
  induction ops generalizing p with
  | nil => exact Nat.le_refl _
  | cons op ops ih => exact (p.length_le_apply op).trans (ih _)

theorem backend_apply_of_lt {p : Pool} {i : Nat} (hi : i < p.backends.length) (op : Op) :
    (p.apply op).backend i = p.effect op i (p.backend i) :=
  backend_eq_of_getElem? (getElem?_apply (getElem?_eq_backend hi) op)

/-- A cooling breaker is the same at the end of a segment that ends within the
cooldown. -/
theorem breaker_exec_of_cooling {p : Pool} {i T : Nat} (hi : i < p.backends.length)
    (ho : (p.backend i).breaker.state = .open)
    (hT : T - (p.backend i).breaker.openedAt < (p.backend i).breaker.cfg.cooldownMs)
    {ops : List Op} (hv : poolSystem.Valid p ops)
    (ht : ∀ op ∈ ops, ∀ t, op.time = some t → t ≤ T) :
    ((poolSystem.exec p ops).backend i).breaker = (p.backend i).breaker := by
  have hseg := System.preserved (M := poolSystem)
    (P := fun q => i < q.backends.length ∧ (q.backend i).breaker = (p.backend i).breaker)
    (Q := fun op => ∀ t, op.time = some t → t ≤ T)
    (fun q op hq _ htime => by
      obtain ⟨hlt, heq⟩ := hq
      refine ⟨Nat.lt_of_lt_of_le hlt (q.length_le_apply op), ?_⟩
      show ((q.apply op).backend i).breaker = _
      rw [backend_apply_of_lt hlt, ← heq]
      refine breaker_effect_of_cooling (by rw [heq]; exact ho) (fun t htt => ?_)
      have hle := htime t htt
      rw [heq]
      omega)
    ⟨hi, rfl⟩ hv ht
  exact hseg.2

theorem lt_length_of_ejectedUntil {p : Pool} {i u : Nat}
    (h : (p.backend i).ejectedUntil = some u) : i < p.backends.length :=
  lt_length_of_field_ne Backend.ejectedUntil (by rw [h]; exact Option.some_ne_none u)

/-- An active ejection is the same at the end of a segment that ends before its
expiry. -/
theorem ejection_exec_of_active {p : Pool} {i u : Nat}
    (hu : (p.backend i).ejectedUntil = some u) {ops : List Op}
    (hv : poolSystem.Valid p ops)
    (ht : ∀ op ∈ ops, ∀ t, op.time = some t → t < u) :
    ((poolSystem.exec p ops).backend i).ejection = (p.backend i).ejection := by
  have hseg := System.preserved (M := poolSystem)
    (P := fun q => i < q.backends.length ∧
      (q.backend i).ejection = (p.backend i).ejection)
    (Q := fun op => ∀ t, op.time = some t → t < u)
    (fun q op hq _ htime => by
      obtain ⟨hlt, heq⟩ := hq
      have hqu : (q.backend i).ejectedUntil = some u :=
        (congrArg Backend.Ejection.ejectedUntil heq).trans hu
      refine ⟨Nat.lt_of_lt_of_le hlt (q.length_le_apply op), ?_⟩
      show ((q.apply op).backend i).ejection = _
      rw [backend_apply_of_lt hlt, ← heq]
      exact ejection_effect_of_active hqu htime)
    ⟨lt_length_of_ejectedUntil hu, rfl⟩ hv ht
  exact hseg.2

/-- No selection returns a backend whose breaker is cooling. -/
theorem select_ne_of_cooling {p : Pool} (h : p.Reachable) {now i : Nat}
    {key : Option String} {exclude : List Nat}
    (ho : (p.backend i).breaker.state = .open)
    (hc : now - (p.backend i).breaker.openedAt < (p.backend i).breaker.cfg.cooldownMs) :
    (p.select now key exclude).1 ≠ some i := by
  intro hsel
  obtain ⟨_, _, hav, _⟩ := mem_candidates.mp (select_mem (ringOk_of_reachable h) hsel)
  simp only [Backend.isAvailable, Bool.and_eq_true] at hav
  rcases (CircuitBreaker.admits_eq_true_iff _ _ _).mp hav.2 with hs | ⟨hs, _⟩ | ⟨_, hle⟩
  · exact absurd (ho.symm.trans hs) (by decide)
  · exact absurd (ho.symm.trans hs) (by decide)
  · exact Nat.not_le_of_lt hc hle

/-- No selection returns a backend before its ejection expires. -/
theorem select_ne_of_ejected {p : Pool} (h : p.Reachable) {now i u : Nat}
    {key : Option String} {exclude : List Nat}
    (hu : (p.backend i).ejectedUntil = some u) (hlt : now < u) :
    (p.select now key exclude).1 ≠ some i := by
  intro hsel
  obtain ⟨_, _, hav, _⟩ := mem_candidates.mp (select_mem (ringOk_of_reachable h) hsel)
  simp [Backend.isAvailable, Backend.isEjected, hu, hlt] at hav

/-! ## Trips and ejections of a run -/

/-- The time of a call that trips the breaker of backend `i`. -/
def tripTime (i : Nat) (p : Pool) (op : Op) : Option Nat :=
  if (p.backend i).breaker.trips < ((p.apply op).backend i).breaker.trips then op.time
  else none

/-- The time of a call that ejects backend `i` for its failures. -/
def ejectionTime (i : Nat) (p : Pool) (op : Op) : Option Nat :=
  if (p.backend i).ejections < ((p.apply op).backend i).ejections then op.time
  else none

/-- A trip leaves the breaker of a backend of the pool open since the time of
the call. -/
theorem tripTime_eq_some {p : Pool} {op : Op} (hok : p.Accepts op) {i t : Nat}
    (h : tripTime i p op = some t) :
    i < p.backends.length ∧ op.time = some t ∧
    ((p.apply op).backend i).breaker.state = .open ∧
    ((p.apply op).backend i).breaker.openedAt = t ∧
    ((p.apply op).backend i).breaker.cfg = (p.backend i).breaker.cfg := by
  unfold tripTime at h
  split_ifs at h with hlt
  rcases backend_apply_cases hok i with ⟨hi, heq⟩ | ⟨_, hfresh⟩
  · rcases p.effect_breaker_cases op i (p.backend i) with hb | ⟨e, htime, hb⟩
    · rw [heq, hb] at hlt
      exact absurd hlt (Nat.lt_irrefl _)
    · rw [heq, hb] at hlt ⊢
      obtain ⟨ho, hat⟩ := CircuitBreaker.apply_of_trips_lt hlt
      rw [htime] at h
      exact ⟨hi, by rw [htime, h], ho, hat.trans (Option.some.inj h),
        CircuitBreaker.apply_cfg _ e⟩
  · obtain ⟨health, cfg, hb⟩ := hfresh
    rw [hb] at hlt
    exact absurd hlt (Nat.not_lt_zero _)

/-- What the state of a backend says of the last trip and the last ejection
before it. -/
structure Traced (p₀ : Pool) (ops : List Op) (p : Pool) (i : Nat) : Prop where
  breaker : (p.backend i).breaker.state = .open →
    poolSystem.last (tripTime i) p₀ ops = some (p.backend i).breaker.openedAt
  ejection : p.ewma = none → ∀ u, (p.backend i).ejectedUntil = some u →
    ∃ t, poolSystem.last (ejectionTime i) p₀ ops = some t ∧
      u ≤ t + p.health.ejectionBaseMs

/-- A call keeps the trace of the breaker: an open breaker was open since the
same time before the call, or the call tripped it. -/
theorem Traced.breaker_apply {p₀ : Pool} {ops : List Op} {i : Nat}
    (h : Traced p₀ ops (poolSystem.exec p₀ ops) i) {op : Op}
    (hok : (poolSystem.exec p₀ ops).Accepts op)
    (ho : (((poolSystem.exec p₀ ops).apply op).backend i).breaker.state = .open) :
    poolSystem.last (tripTime i) p₀ (ops ++ [op]) =
      some (((poolSystem.exec p₀ ops).apply op).backend i).breaker.openedAt := by
  rw [System.last_concat]
  have htr := h.breaker
  generalize poolSystem.last (tripTime i) p₀ ops = before at htr ⊢
  generalize poolSystem.exec p₀ ops = p at htr hok ho ⊢
  unfold tripTime
  rcases backend_apply_cases hok i with ⟨hi, heq⟩ | ⟨_, health, cfg, hb⟩
  · rw [heq] at ho ⊢
    rcases p.effect_breaker_cases op i (p.backend i) with hb | ⟨e, htime, hb⟩
    · rw [hb] at ho ⊢
      simpa using htr ho
    · rw [hb] at ho ⊢
      by_cases hlt : (p.backend i).breaker.trips < ((p.backend i).breaker.apply e).trips
      · rw [if_pos hlt, htime, (CircuitBreaker.apply_of_trips_lt hlt).2]
        rfl
      · rcases CircuitBreaker.apply_open_cases ho with ⟨hop, hat⟩ | ⟨hlt', _⟩
        · rw [if_neg hlt, hat]
          simpa using htr hop
        · exact absurd hlt' hlt
  · rw [hb] at ho
    exact absurd ho (by simp [Backend.new, CircuitBreaker.new])

/-- Without the latency layer an ejection was there before the call, or the call
is the failure that armed it. -/
theorem ejectedUntil_effect {p : Pool} (he : p.ewma = none) {op : Op} {i : Nat}
    {b : Backend} {u : Nat} (h : (p.effect op i b).ejectedUntil = some u) :
    (b.ejectedUntil = some u ∧ (p.effect op i b).ejections = b.ejections) ∨
    (∃ now, op.time = some now ∧ u ≤ now + p.health.ejectionBaseMs ∧
      (p.effect op i b).ejections = b.ejections + 1) := by
  rcases p.effect_ejection_cases op i b with ⟨now, rfl⟩ | ⟨_, heq⟩ | ⟨now, rfl, _, heq⟩
  · have heq := Backend.poll_none_ejection p.threshold now b
    rw [← he] at heq
    have hu : (p.effect (.poll now) i b).ejectedUntil =
        if b.isEjected now then b.ejectedUntil else none :=
      congrArg Backend.Ejection.ejectedUntil heq
    rw [h] at hu
    split_ifs at hu
    exact Or.inl ⟨hu.symm, Backend.poll_ejections _ _ _ _⟩
  · have hu := congrArg Backend.Ejection.ejectedUntil heq
    have hn := congrArg Backend.Ejection.ejections heq
    exact Or.inl ⟨hu.symm.trans h, hn⟩
  · have hu := congrArg Backend.Ejection.ejectedUntil heq
    have hn := congrArg Backend.Ejection.ejections heq
    have hsat : saturatingAdd64 now p.health.ejectionBaseMs = u :=
      Option.some.inj (hu.symm.trans h)
    exact Or.inr ⟨now, rfl, hsat ▸ saturatingAdd64_le _ _, hn⟩

theorem Traced.ejection_apply {p₀ : Pool} {ops : List Op} {i : Nat}
    (h : Traced p₀ ops (poolSystem.exec p₀ ops) i) {op : Op}
    (hok : (poolSystem.exec p₀ ops).Accepts op)
    (he : (poolSystem.exec p₀ ops).ewma = none) {u : Nat}
    (hu : (((poolSystem.exec p₀ ops).apply op).backend i).ejectedUntil = some u) :
    ∃ t, poolSystem.last (ejectionTime i) p₀ (ops ++ [op]) = some t ∧
      u ≤ t + (poolSystem.exec p₀ ops).health.ejectionBaseMs := by
  rw [System.last_concat]
  have htr := h.ejection he
  generalize poolSystem.last (ejectionTime i) p₀ ops = before at htr ⊢
  generalize poolSystem.exec p₀ ops = p at htr hok he hu ⊢
  unfold ejectionTime
  rcases backend_apply_cases hok i with ⟨hi, heq⟩ | ⟨_, health, cfg, hb⟩
  · rw [heq] at hu ⊢
    rcases ejectedUntil_effect he hu with ⟨hold, hn⟩ | ⟨now, htime, hle, hn⟩
    · rw [hn]
      simpa using htr u hold
    · rw [hn, if_pos (Nat.lt_succ_self _), htime]
      exact ⟨now, rfl, hle⟩
  · rw [hb] at hu
    exact absurd hu (by simp [Backend.new])

/-- Every run traces its trips and ejections. -/
theorem traced_exec {p₀ : Pool} (h₀ : poolSystem.init p₀) {ops : List Op}
    (hv : poolSystem.Valid p₀ ops) (i : Nat) :
    Traced p₀ ops (poolSystem.exec p₀ ops) i := by
  refine System.Always.history (M := poolSystem) (I := fun ops p => Traced p₀ ops p i)
    ?_ ?_ hv
  · obtain ⟨name, strategy, health, rfl⟩ := h₀
    exact ⟨fun h => absurd h (by simp [Pool.new, backend, default, Backend.new,
      CircuitBreaker.new]), fun _ u h => absurd h (by simp [Pool.new, backend, default,
      Backend.new])⟩
  · intro as op _ hok htr
    refine ⟨htr.breaker_apply hok, fun he u hu => ?_⟩
    have hhealth : (poolSystem.step (poolSystem.exec p₀ as) op).health =
        (poolSystem.exec p₀ as).health := health_apply _ op
    have hold : (poolSystem.exec p₀ as).ewma = none := by
      cases op with
      | enableEwma cfg => exact absurd he (by simp [poolSystem, apply, enableEwma])
      | _ =>
        rw [← he]
        exact (ewma_apply _ _ (by simp)).symm
    rw [hhealth]
    exact htr.ejection_apply hok hold hu

/-! ## The contract -/

/-- A quarantine is over: the last trip has cooled down and the last ejection
has expired. -/
structure Released (p₀ : Pool) (ops : List Op) (i T : Nat) : Prop where
  cooled : ∀ t, poolSystem.last (tripTime i) p₀ ops = some t →
    t + ((poolSystem.exec p₀ ops).backend i).breaker.cfg.cooldownMs ≤ T
  expired : ∀ t, poolSystem.last (ejectionTime i) p₀ ops = some t →
    t + (poolSystem.exec p₀ ops).health.ejectionBaseMs ≤ T

/-- Without the latency layer a healthy idle backend whose quarantine is over
is available after a poll. -/
theorem isAvailable_of_released {p₀ : Pool} (h₀ : poolSystem.init p₀) {ops : List Op}
    (hv : poolSystem.Valid p₀ ops) (he : (poolSystem.exec p₀ ops).ewma = none) {i T : Nat}
    (hi : i < (poolSystem.exec p₀ ops).backends.length)
    (hh : ((poolSystem.exec p₀ ops).backend i).healthy = true)
    (hf : ((poolSystem.exec p₀ ops).backend i).inFlight = 0)
    (hs : Released p₀ ops i T) :
    (((poolSystem.exec p₀ ops).poll T).backend i).isAvailable T = true := by
  obtain ⟨hcool, hexp⟩ := hs
  obtain ⟨hbr, hej⟩ := traced_exec h₀ hv i
  generalize poolSystem.exec p₀ ops = p at *
  have hq : (p.poll T).backend i = (p.backend i).poll p.ewma p.threshold T :=
    backend_apply_of_lt hi (.poll T)
  rw [hq]
  simp only [Backend.isAvailable, Bool.and_eq_true, Bool.not_eq_true', Backend.poll_healthy,
    Backend.poll_breaker, Backend.poll_inFlight]
  refine ⟨⟨hh, ?_⟩, ?_⟩
  · rw [isEjected_eq_false_iff]
    intro u hu
    have heq := Backend.poll_none_ejection p.threshold T (p.backend i)
    rw [← he] at heq
    have huntil : ((p.backend i).poll p.ewma p.threshold T).ejectedUntil =
        if (p.backend i).isEjected T then (p.backend i).ejectedUntil else none :=
      congrArg Backend.Ejection.ejectedUntil heq
    rw [hu] at huntil
    split_ifs at huntil
    obtain ⟨t, hlast, hle⟩ := hej he u huntil.symm
    exact Nat.le_trans hle (hexp t hlast)
  · rw [hf, CircuitBreaker.admits_eq_true_iff]
    rcases hst : ((p.backend i).breaker.poll T).state with _ | _ | _
    · exact Or.inl rfl
    · obtain ⟨ho, hlt, _⟩ := CircuitBreaker.cooling_of_poll hst
      have hle := hcool _ (hbr ho)
      omega
    · exact Or.inr (Or.inl ⟨rfl, by omega⟩)

/-- From a trip to the end of its cooldown no selection returns the backend. -/
theorem select_ne_of_trip {p₀ : Pool} (h₀ : poolSystem.init p₀) {pre mid post : List Op}
    {op : Op} {now : Nat} {key : Option String} {exclude : List Nat}
    (hv : poolSystem.Valid p₀ (pre ++ op :: mid ++ .select now key exclude :: post))
    (hn : Nondecreasing Op.time (pre ++ op :: mid ++ .select now key exclude :: post))
    {i t : Nat} (ht : tripTime i (poolSystem.exec p₀ pre) op = some t)
    (hlt : now < t + ((poolSystem.exec p₀ pre).backend i).breaker.cfg.cooldownMs) :
    ((poolSystem.exec p₀ (pre ++ op :: mid)).select now key exclude).1 ≠ some i := by
  have hle : ∀ o ∈ pre ++ op :: mid, ∀ r, o.time = some r → r ≤ now :=
    fun o ho r hr => hn.le ho hr List.mem_cons_self rfl
  have hreach : (poolSystem.exec p₀ (pre ++ op :: mid)).Reachable :=
    ⟨p₀, _, h₀, hv.left, rfl⟩
  have hv' := hv.left.right
  rw [System.exec_append] at hreach ⊢
  generalize poolSystem.exec p₀ pre = p at ht hlt hreach hv' ⊢
  obtain ⟨hi, htime, ho, hat, hcfg⟩ := tripTime_eq_some hv'.1 ht
  have hnow : t ≤ now := hle op (by simp) t htime
  have hi' : i < (p.apply op).backends.length := Nat.lt_of_lt_of_le hi (p.length_le_apply op)
  have hcool : now - ((p.apply op).backend i).breaker.openedAt <
      ((p.apply op).backend i).breaker.cfg.cooldownMs := by
    rw [hat, hcfg]
    omega
  -- The breaker is still as the trip left it when the selection is made.
  have hsame := breaker_exec_of_cooling hi' ho hcool hv'.2
    (fun o hmem r hr => hle o (by simp [hmem]) r hr)
  exact select_ne_of_cooling hreach (by rw [System.exec_cons]; exact hsame ▸ ho)
    (by rw [System.exec_cons]; exact hsame ▸ hcool)

/-- Before the expiry of an ejection no selection returns the backend. -/
theorem select_ne_of_ejection {p₀ : Pool} (h₀ : poolSystem.init p₀)
    {pre mid post : List Op} {now : Nat} {key : Option String} {exclude : List Nat}
    (hv : poolSystem.Valid p₀ (pre ++ mid ++ .select now key exclude :: post))
    (hn : Nondecreasing Op.time (pre ++ mid ++ .select now key exclude :: post))
    {i u : Nat} (hu : ((poolSystem.exec p₀ pre).backend i).ejectedUntil = some u)
    (hlt : now < u) :
    ((poolSystem.exec p₀ (pre ++ mid)).select now key exclude).1 ≠ some i := by
  have hreach : (poolSystem.exec p₀ (pre ++ mid)).Reachable := ⟨p₀, _, h₀, hv.left, rfl⟩
  have hsame := ejection_exec_of_active hu hv.left.right
    (fun o ho r hr => Nat.lt_of_le_of_lt
      (hn.le (List.mem_append_right _ ho) hr List.mem_cons_self rfl) hlt)
  rw [← System.exec_append] at hsame
  have hu' := (congrArg Backend.Ejection.ejectedUntil hsame).trans hu
  exact select_ne_of_ejected hreach hu' hlt

/-! ## One ejection is counted once -/

/-- The backend `b'` after a call that begins no ejection of `b`: nothing is counted, and
the expiry is as before or gone. -/
structure KeepsEjection (b b' : Backend) : Prop where
  ejections : b'.ejections = b.ejections
  ewmaEjections : b'.ewmaEjections = b.ewmaEjections
  ejectedUntil : b'.ejectedUntil = b.ejectedUntil ∨ b'.ejectedUntil = none

/-- The backend `b'` after a call that begins an ejection of `b` with expiry `u`.  The
ejection is for the failures or for the latency, and counted by the one counter of its
kind. -/
structure BeginsEjection (p : Pool) (op : Op) (i u : Nat) (b b' : Backend) : Prop where
  inactive : ∃ now, op.time = some now ∧ b.isEjected now = false
  ejectedUntil : b'.ejectedUntil = some u
  counted :
    (∃ now, op = .recordFailure i now ∧
      u = saturatingAdd64 now p.health.ejectionBaseMs ∧
      b'.ejections = b.ejections + 1 ∧ b'.ewmaEjections = b.ewmaEjections) ∨
    (∃ now cfg, op = .poll now ∧ p.ewma = some cfg ∧
      u = saturatingAdd64 now cfg.ejectionMs ∧
      b'.ejections = b.ejections ∧ b'.ewmaEjections = b.ewmaEjections + 1)

theorem KeepsEjection.of_ejection {b b' : Backend} {e : Option Nat}
    (he : e = b.ejectedUntil ∨ e = none)
    (hn : b'.ejection.ejections = b.ejections)
    (hm : b'.ejection.ewmaEjections = b.ewmaEjections)
    (hu : b'.ejection.ejectedUntil = e) : KeepsEjection b b' :=
  ⟨hn, hm, he.imp hu.trans hu.trans⟩

/-- A poll begins an ejection for the latency, or none. -/
theorem ejection_poll (p : Pool) (now i : Nat) (b : Backend) :
    KeepsEjection b (p.effect (.poll now) i b) ∨
      ∃ u, BeginsEjection p (.poll now) i u b (p.effect (.poll now) i b) := by
  have hpoll : p.effect (.poll now) i b = b.poll p.ewma p.threshold now := rfl
  rw [hpoll]
  cases he : p.ewma with
  | none =>
    have hk := Backend.poll_none_ejection p.threshold now b
    have hexpiry : (if b.isEjected now then b.ejectedUntil else none) = b.ejectedUntil ∨
        (if b.isEjected now then b.ejectedUntil else none) = none := by
      by_cases hact : b.isEjected now = true
      · exact Or.inl (if_pos hact)
      · exact Or.inr (if_neg hact)
    exact Or.inl (.of_ejection hexpiry (by rw [hk]; rfl) (by rw [hk]; rfl) (by rw [hk]))
  | some cfg =>
    rcases Backend.poll_some_cases cfg p.threshold now b with
      ⟨_, hk⟩ | ⟨_, _, hk⟩ | ⟨_, _, _, hk⟩ | ⟨_, _, _, _, _, hk⟩ | ⟨_, hno, _, _, _, hk⟩
    case inl =>
      exact Or.inl (.of_ejection (Or.inl rfl) (by rw [hk]; rfl) (by rw [hk]; rfl)
        (by rw [hk]; rfl))
    case inr.inr.inr.inr =>
      -- the window of the average is full
      have hn := congrArg Backend.Ejection.ejections hk
      have hm := congrArg Backend.Ejection.ewmaEjections hk
      have hu := congrArg Backend.Ejection.ejectedUntil hk
      exact Or.inr ⟨_, ⟨now, rfl, hno⟩, hu, Or.inr ⟨now, cfg, rfl, he, rfl, hn, hm⟩⟩
    all_goals
      exact Or.inl (.of_ejection (Or.inr rfl) (by rw [hk]; rfl) (by rw [hk]; rfl) (by rw [hk]))

/-- A call begins one ejection of a backend, or none. -/
theorem ejection_effect (p : Pool) (op : Op) (i : Nat) (b : Backend) :
    KeepsEjection b (p.effect op i b) ∨
      ∃ u, BeginsEjection p op i u b (p.effect op i b) := by
  rcases p.effect_ejection_cases op i b with ⟨now, rfl⟩ | ⟨_, hk⟩ | ⟨now, rfl, ha, hk⟩
  · exact p.ejection_poll now i b
  · exact Or.inl (.of_ejection (Or.inl rfl) (by rw [hk]; rfl) (by rw [hk]; rfl)
      (by rw [hk]; rfl))
  · have hno : b.isEjected now = false := by
      simp only [Backend.armsEjection, Bool.and_eq_true, Bool.not_eq_true'] at ha
      exact ha.2
    have hn := congrArg Backend.Ejection.ejections hk
    have hm := congrArg Backend.Ejection.ewmaEjections hk
    have hu := congrArg Backend.Ejection.ejectedUntil hk
    exact Or.inr ⟨_, ⟨now, rfl, hno⟩, hu, Or.inl ⟨now, rfl, rfl, hn, hm⟩⟩

theorem ejection_apply {p : Pool} {op : Op} (hok : p.Accepts op) (i : Nat) :
    KeepsEjection (p.backend i) ((p.apply op).backend i) ∨
      ∃ u, BeginsEjection p op i u (p.backend i) ((p.apply op).backend i) := by
  rcases backend_apply_cases hok i with ⟨_, heq⟩ | ⟨hge, health, cfg, hb⟩
  · rw [heq]
    exact p.ejection_effect op i _
  · -- the backend is new, and counts from zero
    rw [hb, backend_of_ge hge]
    exact Or.inl ⟨rfl, rfl, Or.inl rfl⟩

/-- A call that begins an ejection adds one to the sum of the counters. -/
theorem BeginsEjection.sum {p : Pool} {op : Op} {i u : Nat} {b b' : Backend}
    (h : BeginsEjection p op i u b b') :
    b'.ejections + b'.ewmaEjections = b.ejections + b.ewmaEjections + 1 := by
  rcases h.counted with ⟨_, _, _, hn, hm⟩ | ⟨_, _, _, _, _, hn, hm⟩ <;> omega

/-- From the call that begins an ejection to its expiry the ejection counts once. -/
theorem BeginsEjection.counted_once {p : Pool} {op : Op} {i u : Nat}
    (h : BeginsEjection p op i u (p.backend i) ((p.apply op).backend i)) {mid : List Op}
    (hv : poolSystem.Valid (p.apply op) mid)
    (ht : ∀ o ∈ mid, ∀ t, o.time = some t → t < u) :
    ((poolSystem.exec p (op :: mid)).backend i).ejectedUntil = some u ∧
      ((poolSystem.exec p (op :: mid)).backend i).ejections +
          ((poolSystem.exec p (op :: mid)).backend i).ewmaEjections =
        (p.backend i).ejections + (p.backend i).ewmaEjections + 1 := by
  have hsame := ejection_exec_of_active h.ejectedUntil hv ht
  have hu := congrArg Backend.Ejection.ejectedUntil hsame
  have hn := congrArg Backend.Ejection.ejections hsame
  have hm := congrArg Backend.Ejection.ewmaEjections hsame
  refine ⟨hu.trans h.ejectedUntil, ?_⟩
  exact (congrArg₂ (· + ·) hn hm).trans h.sum

/-- Quarantine is exact, over every run of calls whose times do not go back.

* No selection returns a backend between a trip of its breaker and the end of
  the cooldown, nor before the expiry of an ejection.
* Each call keeps the expiry and both counters of a backend, ends its ejection, or
  begins one: then the backend was not ejected, and exactly one of the counters goes up by
  exactly one.
* Up to its expiry an ejection has counted once.  No call before the expiry changes it or
  counts another one.
* Without the latency layer, a poll at any time that the last trip and the last
  ejection allow makes every healthy idle backend available. -/
theorem quarantine_exact {p₀ : Pool} (h₀ : poolSystem.init p₀) {ops : List Op}
    (hv : poolSystem.Valid p₀ ops) (hn : Nondecreasing Op.time ops) (i : Nat) :
    (∀ pre op mid now key exclude post t,
      ops = pre ++ op :: mid ++ .select now key exclude :: post →
      tripTime i (poolSystem.exec p₀ pre) op = some t →
      now < t + ((poolSystem.exec p₀ pre).backend i).breaker.cfg.cooldownMs →
      ((poolSystem.exec p₀ (pre ++ op :: mid)).select now key exclude).1 ≠ some i) ∧
    (∀ pre mid now key exclude post u,
      ops = pre ++ mid ++ .select now key exclude :: post →
      ((poolSystem.exec p₀ pre).backend i).ejectedUntil = some u → now < u →
      ((poolSystem.exec p₀ (pre ++ mid)).select now key exclude).1 ≠ some i) ∧
    (∀ pre op post, ops = pre ++ op :: post →
      KeepsEjection ((poolSystem.exec p₀ pre).backend i)
          ((poolSystem.exec p₀ (pre ++ [op])).backend i) ∨
        ∃ u, BeginsEjection (poolSystem.exec p₀ pre) op i u
          ((poolSystem.exec p₀ pre).backend i)
          ((poolSystem.exec p₀ (pre ++ [op])).backend i)) ∧
    (∀ pre op mid post u, ops = pre ++ op :: mid ++ post →
      BeginsEjection (poolSystem.exec p₀ pre) op i u ((poolSystem.exec p₀ pre).backend i)
        ((poolSystem.exec p₀ (pre ++ [op])).backend i) →
      (∀ o ∈ mid, ∀ t, o.time = some t → t < u) →
      ((poolSystem.exec p₀ (pre ++ op :: mid)).backend i).ejectedUntil = some u ∧
      ((poolSystem.exec p₀ (pre ++ op :: mid)).backend i).ejections +
          ((poolSystem.exec p₀ (pre ++ op :: mid)).backend i).ewmaEjections =
        ((poolSystem.exec p₀ pre).backend i).ejections +
          ((poolSystem.exec p₀ pre).backend i).ewmaEjections + 1) ∧
    (∀ pre mid post u, ops = pre ++ mid ++ post →
      ((poolSystem.exec p₀ pre).backend i).ejectedUntil = some u →
      (∀ op ∈ mid, ∀ t, op.time = some t → t < u) →
      ((poolSystem.exec p₀ (pre ++ mid)).backend i).ejectedUntil = some u ∧
      ((poolSystem.exec p₀ (pre ++ mid)).backend i).ejections =
        ((poolSystem.exec p₀ pre).backend i).ejections ∧
      ((poolSystem.exec p₀ (pre ++ mid)).backend i).ewmaEjections =
        ((poolSystem.exec p₀ pre).backend i).ewmaEjections) ∧
    ((poolSystem.exec p₀ ops).ewma = none →
      i < (poolSystem.exec p₀ ops).backends.length →
      ((poolSystem.exec p₀ ops).backend i).healthy = true →
      ((poolSystem.exec p₀ ops).backend i).inFlight = 0 →
      ∀ T, Released p₀ ops i T →
        (((poolSystem.exec p₀ ops).poll T).backend i).isAvailable T = true) := by
  refine ⟨?_, ?_, ?_, ?_, ?_, ?_⟩
  · intro pre op mid now key exclude post t heq ht hlt
    subst heq
    exact select_ne_of_trip h₀ hv hn ht hlt
  · intro pre mid now key exclude post u heq hu hlt
    subst heq
    exact select_ne_of_ejection h₀ hv hn hu hlt
  · intro pre op post heq
    subst heq
    rw [System.exec_append]
    exact ejection_apply hv.right.1 i
  · intro pre op mid post u heq hbegins ht
    subst heq
    rw [System.exec_append] at hbegins ⊢
    exact hbegins.counted_once hv.left.right.2 ht
  · intro pre mid post u heq hu ht
    subst heq
    have hsame := ejection_exec_of_active hu hv.left.right ht
    rw [← System.exec_append] at hsame
    exact ⟨(congrArg Backend.Ejection.ejectedUntil hsame).trans hu,
      congrArg Backend.Ejection.ejections hsame,
      congrArg Backend.Ejection.ewmaEjections hsame⟩
  · intro he hi hh hf T hs
    exact isAvailable_of_released h₀ hv he hi hh hf hs

/-- A backend that the first failure trips and ejects. -/
def fragile (name : String) : Backend :=
  .new name 1 .default
    { failureThreshold := 1, successThreshold := 1, cooldownMs := 100, halfOpenMaxCalls := 1 }

/-- A failure that trips and ejects one of two backends, and a selection while
both quarantines last. -/
theorem quarantine_exact_two :
    let p₀ := Pool.new "api" .roundRobin
      { HealthConfig.default with outlierConsecutiveFailures := 1 }
    let pre : List Op := [.addBackend (fragile "a"), .addBackend (fragile "b"), .begin 0]
    ((poolSystem.exec p₀ (pre ++ .recordFailure 0 10 :: [.endCall 0, .poll 20])).select
      20 none []).1 ≠ some 0 := by
  intro p₀ pre
  have hfresh : ∀ name, (fragile name).Fresh := fun _ => Backend.fresh_new _ _ _ _
  have hv : poolSystem.Valid p₀ (pre ++ .recordFailure 0 10 ::
      [.endCall 0, .poll 20, .select 20 none []]) :=
    ⟨hfresh "a", hfresh "b", Nat.zero_lt_succ 1, Nat.zero_lt_succ 1, Nat.zero_lt_succ 1,
      trivial, trivial, trivial⟩
  have hn : Nondecreasing Op.time (pre ++ .recordFailure 0 10 ::
      [.endCall 0, .poll 20, .select 20 none []]) := by decide
  exact (quarantine_exact ⟨_, _, _, rfl⟩ hv hn 0).1 pre (.recordFailure 0 10)
    [.endCall 0, .poll 20] 20 none [] [] 10 rfl (by decide) (by decide)

end Pool

end Echofront
