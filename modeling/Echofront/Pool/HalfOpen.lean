import Echofront.Pool.Calls

/-!
# The Half-Open trial under concurrent calls

Half-Open is a trial: the design bounds how many calls are in flight in it, and a
run of successes closes the breaker.  This module says what both mean when calls
begin and end in any order around the trial.

* `CountsWithin` bounds the success counter of a breaker by a count for each trial,
  with one lemma for each transition.
* `Counted` is an invariant of `callSystem`: the success counter is no more than the
  successes counted in the trial.
* `Capped` is the invariant of the runs in which every `begin` has room in `in_flight`.
  The calls in flight that were begun on a backend are no more than its `in_flight`, and
  those of any one trial are no more than the cap.
* `halfOpen_trials_bounded` is the bound of the trial.  The increment of `in_flight` does
  not saturate, and `halfOpen_trials_wrap` is a run without room in which a trial has a
  call too many.
* `halfOpen_closed_by_successes` says what closes a breaker, and
  `halfOpen_closed_late` that a success of a call from before the trip counts like
  any other.
-/

namespace Echofront

open Lib

/-! ## The success counter of a breaker -/

namespace CircuitBreaker

/-- In a trial the success counter is no more than `k` of the trial. -/
def CountsWithin (b : CircuitBreaker) (k : Nat → Nat) : Prop :=
  b.state = .halfOpen → b.consecutiveSuccesses ≤ k b.trips

theorem trial_eq_some_iff {b : CircuitBreaker} {n : Nat} :
    b.trial = some n ↔ b.state = .halfOpen ∧ b.trips = n := by
  unfold trial
  split_ifs with h <;> simp [h]

theorem CountsWithin.mono {b : CircuitBreaker} {k l : Nat → Nat} (h : b.CountsWithin k)
    (hkl : ∀ n, k n ≤ l n) : b.CountsWithin l := fun hs => (h hs).trans (hkl _)

/-- A poll that promotes the breaker starts the counter at zero. -/
theorem CountsWithin.poll {b : CircuitBreaker} {k : Nat → Nat} (h : b.CountsWithin k)
    (now : Nat) : (b.poll now).CountsWithin k := by
  rcases poll_cases b now with ⟨_, _, heq⟩ | ⟨heq, _⟩
  · rw [heq]
    exact fun _ => Nat.zero_le _
  · rw [heq]
    exact h

/-- A failure never leaves a breaker Half-Open. -/
theorem onFailure_ne_halfOpen (b : CircuitBreaker) (now : Nat) :
    (b.onFailure now).state ≠ .halfOpen := by
  rcases onFailure_cases b now with ⟨_, h⟩ | ⟨hs, _, h⟩ | ⟨hs, h⟩ <;> rw [h]
  · simp [trip]
  · simp [hs]
  · simp [hs]

/-- A success counts in the trial that it finds after its poll. -/
theorem CountsWithin.onSuccess {b : CircuitBreaker} {k : Nat → Nat} (h : b.CountsWithin k)
    (now : Nat) : (b.onSuccess now).CountsWithin
      (fun n => k n + if (b.poll now).trial = some n then 1 else 0) := by
  intro hs
  have hpoll := h.poll now
  rcases onSuccess_cases b now with ⟨hp, heq⟩ | ⟨_, _, heq⟩ | ⟨hp, _, heq⟩ | ⟨hp, heq⟩ <;>
    rw [heq] at hs ⊢
  · exact absurd (hp.symm.trans hs) (by decide)
  · exact absurd hs (by simp)
  · have htrial : (b.poll now).trial = some (b.poll now).trips :=
      trial_eq_some_iff.mpr ⟨hp, rfl⟩
    have hle := hpoll hp
    have hincr := incr32_le (b.poll now).consecutiveSuccesses
    simp only [htrial, if_true]
    omega
  · exact absurd (hp.symm.trans hs) (by decide)

theorem poll_closed {b : CircuitBreaker} {now : Nat} (h : (b.poll now).state = .closed) :
    b.state = .closed := by
  rcases poll_cases b now with ⟨_, _, heq⟩ | ⟨heq, _⟩
  · rw [heq] at h
    exact absurd h (by simp)
  · rwa [heq] at h

theorem onFailure_closed {b : CircuitBreaker} {now : Nat}
    (h : (b.onFailure now).state = .closed) : b.state = .closed := by
  rcases onFailure_cases b now with ⟨_, heq⟩ | ⟨hs, _, _⟩ | ⟨hs, heq⟩
  · rw [heq] at h
    exact absurd h (by simp [trip])
  · exact poll_closed hs
  · rw [heq] at h
    exact poll_closed h

/-- A success that closes a breaker finds it in a trial, and the successes counted in
that trial reach the threshold with it. -/
theorem CountsWithin.closes {b : CircuitBreaker} {k : Nat → Nat} (h : b.CountsWithin k)
    {now : Nat} (hopen : b.state ≠ .closed) (hclosed : (b.onSuccess now).state = .closed) :
    (b.poll now).trial = some b.trips ∧ b.cfg.successThreshold ≤ k b.trips + 1 := by
  have hpoll := h.poll now
  rcases onSuccess_cases b now with ⟨hp, _⟩ | ⟨hp, hdone, _⟩ | ⟨hp, _, heq⟩ | ⟨hp, heq⟩
  · exact absurd (poll_closed hp) hopen
  · have hle := hpoll hp
    rw [poll_trips] at hle
    have hincr := incr32_le (b.poll now).consecutiveSuccesses
    exact ⟨trial_eq_some_iff.mpr ⟨hp, poll_trips b now⟩, by omega⟩
  · rw [heq] at hclosed
    exact absurd (hp.symm.trans hclosed) (by decide)
  · rw [heq] at hclosed
    exact absurd (hp.symm.trans hclosed) (by decide)

/-- Trial `n` of a breaker is over. -/
def Past (b : CircuitBreaker) (n : Nat) : Prop :=
  n < b.trips ∨ (b.trips = n ∧ b.state = .closed)

theorem Past.trial_ne {b : CircuitBreaker} {n : Nat} (h : b.Past n) : b.trial ≠ some n := by
  intro htrial
  obtain ⟨hs, htrips⟩ := trial_eq_some_iff.mp htrial
  rcases h with hlt | ⟨_, hc⟩
  · omega
  · exact absurd (hs.symm.trans hc) (by decide)

/-- A trial that is over does not come back. -/
theorem Past.apply {b : CircuitBreaker} {n : Nat} (h : b.Past n) (e : BreakerEvent) :
    (b.apply e).Past n := by
  rcases h with hlt | ⟨htrips, hc⟩
  · refine Or.inl (Nat.lt_of_lt_of_le hlt ?_)
    cases e with
    | poll now => exact (poll_trips b now).ge
    | onSuccess now => exact (onSuccess_trips b now).ge
    | onFailure now =>
      rcases onFailure_cases b now with ⟨_, heq⟩ | ⟨_, _, heq⟩ | ⟨_, heq⟩ <;>
        simp [CircuitBreaker.apply, heq, trip]
  · have hpoll : ∀ now, b.poll now = b := fun now => by simp [CircuitBreaker.poll, hc]
    cases e with
    | poll now => exact Or.inr (by simp only [CircuitBreaker.apply, hpoll]; exact ⟨htrips, hc⟩)
    | onSuccess now =>
      refine Or.inr ⟨(onSuccess_trips b now).trans htrips, ?_⟩
      simp [CircuitBreaker.apply, CircuitBreaker.onSuccess, hpoll, hc]
    | onFailure now =>
      rcases onFailure_cases b now with ⟨_, heq⟩ | ⟨hs, _, heq⟩ | ⟨hs, _⟩
      · exact Or.inl (by simp only [CircuitBreaker.apply, heq, trip, hpoll]; omega)
      · refine Or.inr ?_
        simp only [CircuitBreaker.apply, heq, hpoll]
        exact ⟨htrips, hc⟩
      · rw [hpoll, hc] at hs
        exact absurd hs (by decide)

/-- A call on a breaker in a trial leaves it there, or ends the trial. -/
theorem trial_apply {b : CircuitBreaker} {n : Nat} (h : b.trial = some n) (e : BreakerEvent) :
    (b.apply e).trial = some n ∨ (b.apply e).Past n := by
  obtain ⟨hs, htrips⟩ := trial_eq_some_iff.mp h
  have hpoll : ∀ now, b.poll now = b := fun now => by simp [CircuitBreaker.poll, hs]
  cases e with
  | poll now => exact Or.inl (by simp only [CircuitBreaker.apply, hpoll]; exact h)
  | onSuccess now =>
    have ht : (b.onSuccess now).trips = n := (onSuccess_trips b now).trans htrips
    rcases onSuccess_cases b now with ⟨hp, _⟩ | ⟨_, _, heq⟩ | ⟨hp, _, heq⟩ | ⟨hp, _⟩
    · rw [hpoll, hs] at hp
      exact absurd hp (by decide)
    · exact Or.inr (Or.inr ⟨ht, by simp [CircuitBreaker.apply, heq]⟩)
    · refine Or.inl (trial_eq_some_iff.mpr ⟨?_, ht⟩)
      simp only [CircuitBreaker.apply, heq]
      exact hp
    · rw [hpoll, hs] at hp
      exact absurd hp (by decide)
  | onFailure now =>
    refine Or.inr (Or.inl ?_)
    have heq : b.onFailure now = b.trip now := by simp [CircuitBreaker.onFailure, hpoll, hs]
    simp only [CircuitBreaker.apply, heq, trip]
    omega

end CircuitBreaker

namespace CallState

/-! ## The calls of a trial -/

/-- A call in flight on backend `i`. -/
def liveOn (i : Nat) (c : PoolCall) : Bool := c.backend == i && !c.ended

/-- A call in flight on backend `i` that was begun in its trial `n`. -/
def liveTrial (i n : Nat) (c : PoolCall) : Bool := liveOn i c && c.begunIn == some n

/-- A call on backend `i` whose success was counted in its trial `n`. -/
def countedIn (i n : Nat) (c : PoolCall) : Bool := c.backend == i && c.succeededIn == some n

/-- What the state says of the calls in flight on backend `i`. -/
structure Capped (s : CallState) (i : Nat) : Prop where
  live : s.calls.countP (liveOn i) ≤ (s.pool.backend i).inFlight
  trials : ∀ n, s.calls.countP (liveTrial i n) ≤
    max 1 (s.pool.backend i).breaker.cfg.halfOpenMaxCalls

/-- What the state says of the successes on backend `i`. -/
def Counted (s : CallState) (i : Nat) : Prop :=
  (s.pool.backend i).breaker.CountsWithin (fun n => s.calls.countP (countedIn i n))

/-- A start that picks a backend finds room for one more in its `in_flight`. -/
def RoomToBegin (s : CallState) : CallOp → Prop
  | .start now key exclude =>
    ∀ i ∈ s.picked now key exclude, (s.pool.backend i).inFlight < u32Max
  | _ => True

instance (s : CallState) : ∀ a, Decidable (RoomToBegin s a)
  | .start now key exclude =>
    inferInstanceAs (Decidable (∀ i ∈ s.picked now key exclude, _ < _))
  | .outcome _ _ _ | .finish _ | .background _ => isTrue trivial

theorem liveOn_backend {i : Nat} {c : PoolCall} (h : liveOn i c = true) : c.backend = i := by
  simp only [liveOn, Bool.and_eq_true, beq_iff_eq] at h
  exact h.1

theorem liveTrial_live {i n : Nat} {c : PoolCall} (h : liveTrial i n c = true) :
    liveOn i c = true := by
  simp only [liveTrial, Bool.and_eq_true] at h
  exact h.1

theorem countedIn_backend {i n : Nat} {c : PoolCall} (h : countedIn i n c = true) :
    c.backend = i := by
  simp only [countedIn, Bool.and_eq_true, beq_iff_eq] at h
  exact h.1

/-- A call without an outcome has been counted in no trial. -/
theorem unrecorded_of_reachable {s : CallState} (h : s.Reachable) :
    ∀ c ∈ s.calls, c.recorded = false → c.succeededIn = none := by
  refine System.Reachable.invariant (M := callSystem)
    (I := fun s => ∀ c ∈ s.calls, c.recorded = false → c.succeededIn = none) ?_ ?_ h
  · intro s₀ h₀
    simp [h₀.2]
  · intro s a hs ha c hc hnew
    cases a with
    | start now key exclude =>
      rcases List.mem_append.mp hc with hc | hc
      · exact hs c hc hnew
      · obtain ⟨i, _, rfl⟩ := List.mem_map.mp hc
        rfl
    | outcome id now o =>
      rcases List.mem_or_eq_of_mem_set hc with hc | rfl
      · exact hs c hc hnew
      · exact absurd hnew (by simp [recordedCall])
    | finish id =>
      rcases List.mem_or_eq_of_mem_set hc with hc | rfl
      · exact hs c hc hnew
      · exact hs (s.call id) (call_mem ha.1) hnew
    | background op => exact hs c hc hnew

/-! ## The invariant -/

/-- A backend that was not there before a step has no calls and a closed breaker
after it. -/
theorem absent_step {s : CallState} (h : s.pool.Reachable) (hr : s.InRange) {a : CallOp}
    (ha : s.Accepts a) {i : Nat} (hge : s.pool.backends.length ≤ i) :
    ((s.step a).pool.backend i).breaker.state = .closed ∧
      ∀ P : PoolCall → Bool, (∀ c, P c = true → c.backend = i) →
        (s.step a).calls.countP P = 0 := by
  refine ⟨?_, fun P hP => List.countP_eq_zero.mpr (fun c hc hPc => ?_)⟩
  · by_cases hback : ∃ op, a = .background op
    · obtain ⟨op, rfl⟩ := hback
      rcases Pool.backend_apply_cases ha.2 i with ⟨hi, _⟩ | ⟨_, health, cfg, hb⟩
      · exact absurd hge (Nat.not_le_of_lt hi)
      · show ((s.pool.apply op).backend i).breaker.state = .closed
        rw [hb]
        rfl
    · have hadd := ne_addBackend_of_mem_poolOps (s := s) (fun op he => hback ⟨op, he⟩)
      have hlen : (s.step a).pool.backends.length = s.pool.backends.length :=
        length_exec_of_ne hadd s.pool
      rw [Pool.backend_of_ge (by rw [hlen]; exact hge)]
      rfl
  · have hlt := backend_lt_of_step h hr ha c hc
    rw [hP c hPc] at hlt
    exact absurd hge (Nat.not_le_of_lt hlt)

/-- The cap holds when a call begins: the backend was available after the poll, so
fewer calls than the cap were in flight. -/
theorem inFlight_lt_of_trial {s : CallState} {i now n : Nat} (hi : i < s.pool.backends.length)
    (hav : ((s.pool.poll now).backend i).isAvailable now = true)
    (htrial : s.trialAt i now = some n) :
    (s.pool.backend i).inFlight < max 1 (s.pool.backend i).breaker.cfg.halfOpenMaxCalls := by
  have hpoll : (s.pool.poll now).backend i =
      (s.pool.backend i).poll s.pool.ewma s.pool.threshold now :=
    Pool.backend_apply_of_lt hi (.poll now)
  simp only [hpoll, Backend.isAvailable, Bool.and_eq_true, Backend.poll_breaker,
    Backend.poll_inFlight] at hav
  obtain ⟨hs, _⟩ := CircuitBreaker.trial_eq_some_iff.mp htrial
  rcases (CircuitBreaker.admits_eq_true_iff _ _ _).mp hav.2 with hc | ⟨_, hlt⟩ | ⟨ho, _⟩
  · exact absurd (hs.symm.trans hc) (by decide)
  · rw [CircuitBreaker.poll_cfg] at hlt
    rwa [Nat.max_comm]
  · exact absurd (hs.symm.trans ho) (by decide)

/-- The cap on the calls of a trial when a call begins. -/
theorem Capped.trials_begun {s : CallState} {i now : Nat} (h : Capped s i)
    (hi : i < s.pool.backends.length)
    (hav : ((s.pool.poll now).backend i).isAvailable now = true) (n : Nat) :
    (s.calls ++ [s.begunCall now i]).countP (liveTrial i n) ≤
      max 1 (s.pool.backend i).breaker.cfg.halfOpenMaxCalls := by
  have htrials := h.trials n
  have hlive := h.live
  rw [List.countP_append]
  by_cases htrial : s.trialAt i now = some n
  · have hlt := inFlight_lt_of_trial hi hav htrial
    have hle : s.calls.countP (liveTrial i n) ≤ s.calls.countP (liveOn i) :=
      List.countP_mono_left (fun c _ hc => liveTrial_live hc)
    have hone : [s.begunCall now i].countP (liveTrial i n) ≤ 1 := List.countP_le_length
    omega
  · have hzero : [s.begunCall now i].countP (liveTrial i n) = 0 := by
      simp [liveTrial, begunCall, htrial]
    omega

/-- The counts of the calls when an outcome is recorded. -/
theorem countP_recordedCall {s : CallState} {id : Nat} (now : Nat) (o : CallOutcome)
    (hid : id < s.calls.length) (hnone : (s.call id).succeededIn = none) (i : Nat) :
    (s.calls.set id (s.recordedCall id now o)).countP (liveOn i) =
        s.calls.countP (liveOn i) ∧
      (∀ n, (s.calls.set id (s.recordedCall id now o)).countP (liveTrial i n) =
        s.calls.countP (liveTrial i n)) ∧
      ∀ n, (s.calls.set id (s.recordedCall id now o)).countP (countedIn i n) =
        s.calls.countP (countedIn i n) +
          if countedIn i n (s.recordedCall id now o) = true then 1 else 0 := by
  have hsame : ∀ P : PoolCall → Bool, P (s.recordedCall id now o) = P (s.call id) →
      (s.calls.set id (s.recordedCall id now o)).countP P = s.calls.countP P := by
    intro P hP
    have hle := List.boole_getElem_le_countP (p := P) hid
    rw [List.countP_set hid, hP, call_eq_getElem hid]
    omega
  refine ⟨hsame _ rfl, fun n => hsame _ rfl, fun n => ?_⟩
  have hold : ¬ countedIn i n s.calls[id] = true := by
    rw [← call_eq_getElem hid]
    simp [countedIn, hnone]
  rw [List.countP_set hid, if_neg hold]
  rfl

/-- The counts of the calls when a call ends. -/
theorem countP_ended {s : CallState} {id i : Nat} (hid : id < s.calls.length)
    (hi : (s.call id).backend = i) (hlive : (s.call id).ended = false) :
    (s.calls.set id { s.call id with ended := true }).countP (liveOn i) + 1 =
        s.calls.countP (liveOn i) ∧
      (∀ n, (s.calls.set id { s.call id with ended := true }).countP (liveTrial i n) ≤
        s.calls.countP (liveTrial i n)) ∧
      ∀ n, (s.calls.set id { s.call id with ended := true }).countP (countedIn i n) =
        s.calls.countP (countedIn i n) := by
  refine ⟨?_, fun n => ?_, fun n => ?_⟩
  · have hle := List.boole_getElem_le_countP (p := liveOn i) hid
    have hold : liveOn i s.calls[id] = true := by
      rw [← call_eq_getElem hid]
      simp [liveOn, hi, hlive]
    rw [if_pos hold] at hle
    rw [List.countP_set hid, if_pos hold, if_neg (by simp [liveOn])]
    omega
  · have hnew : ¬ liveTrial i n { s.call id with ended := true } = true := by
      simp [liveTrial, liveOn]
    rw [List.countP_set hid, if_neg hnew]
    omega
  · have hle := List.boole_getElem_le_countP (p := countedIn i n) hid
    have hsame : countedIn i n { s.call id with ended := true } =
        countedIn i n s.calls[id] := by
      rw [← call_eq_getElem hid]
      rfl
    rw [List.countP_set hid, hsame]
    omega

/-- The step lemma of the cap. -/
theorem Capped.step {s : CallState} {i : Nat} (h : Capped s i) (hreach : s.Reachable)
    {a : CallOp} (ha : s.Accepts a) (hroom : s.RoomToBegin a) : Capped (s.step a) i := by
  obtain ⟨hpool, hrange⟩ := reachable_pool hreach
  have hlive := h.live
  have htrials := h.trials
  by_cases hi : i < s.pool.backends.length
  · cases callStep hpool ha hi with
    | @begins now key exclude heq hp hav hb hf hcalls =>
      subst heq
      refine ⟨?_, fun n => ?_⟩
      · rw [hcalls, hf, incr32_eq (hroom i hp), List.countP_append]
        have hone : [s.begunCall now i].countP (liveOn i) ≤ 1 := List.countP_le_length
        omega
      · rw [hcalls, hb, CircuitBreaker.poll_cfg]
        exact h.trials_begun hi hav n
    | other hb hf hcalls =>
      refine ⟨?_, fun n => ?_⟩
      · rw [hcalls _ (fun _ => liveOn_backend), hf]
        exact hlive
      · rw [hcalls _ (fun _ hc => liveOn_backend (liveTrial_live hc))]
        rcases hb with hb | ⟨now, hb⟩ <;> rw [hb]
        · exact htrials n
        · rw [CircuitBreaker.poll_cfg]
          exact htrials n
    | @records id now o hid hidx hnew hb hf hcalls =>
      have hnone := unrecorded_of_reachable hreach _ (call_mem hid) hnew
      obtain ⟨hl, ht, _⟩ := countP_recordedCall now o hid hnone i
      have hcfg : ((s.step a).pool.backend i).breaker.cfg = (s.pool.backend i).breaker.cfg := by
        rw [hb]
        split_ifs <;> simp
      refine ⟨?_, fun n => ?_⟩
      · rw [hcalls, hf, hl]
        exact hlive
      · rw [hcalls, hcfg, ht]
        exact htrials n
    | @ends id hid hidx hopen hb hf hcalls =>
      obtain ⟨hl, ht, _⟩ := countP_ended hid hidx hopen
      refine ⟨?_, fun n => ?_⟩
      · rw [hcalls, hf]
        omega
      · rw [hcalls, hb]
        exact (ht n).trans (htrials n)
  · obtain ⟨_, hzero⟩ := absent_step hpool hrange ha (Nat.le_of_not_lt hi)
    refine ⟨?_, fun n => ?_⟩
    · rw [hzero _ (fun _ => liveOn_backend)]
      exact Nat.zero_le _
    · rw [hzero _ (fun _ hc => liveOn_backend (liveTrial_live hc))]
      exact Nat.zero_le _

/-- The step lemma of the successes. -/
theorem Counted.step {s : CallState} {i : Nat} (h : Counted s i) (hreach : s.Reachable)
    {a : CallOp} (ha : s.Accepts a) : Counted (s.step a) i := by
  obtain ⟨hpool, hrange⟩ := reachable_pool hreach
  unfold Counted at h ⊢
  by_cases hi : i < s.pool.backends.length
  · cases callStep hpool ha hi with
    | @begins now key exclude _ _ hav hb hf hcalls =>
      rw [hb]
      refine (h.poll now).mono (fun n => ?_)
      rw [hcalls, List.countP_append]
      exact Nat.le_add_right _ _
    | other hb hf hcalls =>
      have hmono : (s.pool.backend i).breaker.CountsWithin
          (fun n => (s.step a).calls.countP (countedIn i n)) :=
        h.mono (fun n => (hcalls _ (fun _ => countedIn_backend)).ge)
      rcases hb with hb | ⟨now, hb⟩ <;> rw [hb]
      · exact hmono
      · exact hmono.poll now
    | @records id now o hid hidx hnew hb hf hcalls =>
      have hnone := unrecorded_of_reachable hreach _ (call_mem hid) hnew
      obtain ⟨_, _, hc⟩ := countP_recordedCall now o hid hnone i
      rw [hb]
      split_ifs with ho
      · exact fun hs => absurd hs (CircuitBreaker.onFailure_ne_halfOpen _ _)
      · refine (h.onSuccess now).mono (fun n => ?_)
        rw [hcalls, hc]
        refine Nat.add_le_add_left ?_ _
        simp [countedIn, recordedCall, hidx, ho, trialAt]
    | @ends id hid hidx hopen hb hf hcalls =>
      obtain ⟨_, _, hc⟩ := countP_ended hid hidx hopen
      rw [hb]
      refine h.mono (fun n => ?_)
      rw [hcalls, hc]
  · obtain ⟨hclosed, _⟩ := absent_step hpool hrange ha (Nat.le_of_not_lt hi)
    exact fun hs => absurd (hclosed.symm.trans hs) (by decide)

/-- The run lemma of the cap. -/
theorem capped_exec {s₀ : CallState} (h₀ : callSystem.init s₀) {as : List CallOp}
    (hv : callSystem.Valid s₀ as) (hroom : callSystem.Always RoomToBegin s₀ as) (i : Nat) :
    Capped (callSystem.exec s₀ as) i := by
  induction as using List.reverseRecOn with
  | nil =>
    obtain ⟨_, hcalls⟩ := h₀
    exact ⟨by simp [hcalls], fun n => by simp [hcalls]⟩
  | append_singleton as a ih =>
    have hreach : (callSystem.exec s₀ as).Reachable := ⟨s₀, as, h₀, hv.left, rfl⟩
    obtain ⟨hbefore, hlast, _⟩ := (System.always_append_iff _ _ _ _ _).mp hroom
    rw [System.exec_append]
    exact (ih hv.left hbefore).step hreach hv.right.1 hlast

/-- The run lemma of the successes. -/
theorem counted_of_reachable {s : CallState} (h : s.Reachable) (i : Nat) : Counted s i := by
  have hinv : s.Reachable ∧ Counted s i := by
    refine System.Reachable.invariant (M := callSystem)
      (I := fun s => s.Reachable ∧ Counted s i) ?_ ?_ h
    · intro s₀ h₀
      refine ⟨⟨s₀, [], h₀, trivial, rfl⟩, ?_⟩
      obtain ⟨⟨name, strategy, health, hpool⟩, _⟩ := h₀
      intro hs
      rw [hpool] at hs
      exact absurd hs (by simp [Pool.new, Pool.backend, default, Backend.new,
        CircuitBreaker.new])
    · intro s a hs ha
      exact ⟨System.Reachable.step (M := callSystem) hs.1 ha, hs.2.step hs.1 ha⟩
  exact hinv.2

/-! ## One trial over a run -/

/-- The breaker of a backend moves by one breaker call in a step, or not at all. -/
theorem breaker_step {s : CallState} (h : s.pool.Reachable) {a : CallOp} (ha : s.Accepts a)
    {i : Nat} (hi : i < s.pool.backends.length) :
    ((s.step a).pool.backend i).breaker = (s.pool.backend i).breaker ∨
      ∃ e : BreakerEvent, ((s.step a).pool.backend i).breaker =
        (s.pool.backend i).breaker.apply e := by
  cases callStep h ha hi with
  | @begins now _ _ _ _ _ hb _ _ => exact Or.inr ⟨.poll now, hb⟩
  | other hb _ _ =>
    rcases hb with hb | ⟨now, hb⟩
    · exact Or.inl hb
    · exact Or.inr ⟨.poll now, hb⟩
  | @records id now o _ _ _ hb _ _ =>
    rw [hb]
    split_ifs
    · exact Or.inr ⟨.onFailure now, rfl⟩
    · exact Or.inr ⟨.onSuccess now, rfl⟩
  | ends _ _ _ hb _ _ => exact Or.inl hb

theorem length_backends_exec (s : CallState) (as : List CallOp) :
    s.pool.backends.length ≤ (callSystem.exec s as).pool.backends.length := by
  induction as generalizing s with
  | nil => exact Nat.le_refl _
  | cons a as ih => exact (Pool.length_le_exec s.pool (s.poolOps a)).trans (ih (s.step a))

/-- What every call on a breaker keeps, a run of callers keeps of the breaker of a
backend. -/
theorem breaker_preserved {s : CallState} (h : s.Reachable) {i : Nat}
    (hi : i < s.pool.backends.length) {P : CircuitBreaker → Prop}
    (hP : ∀ b e, P b → P (b.apply e)) {as : List CallOp} (hv : callSystem.Valid s as)
    (hs : P (s.pool.backend i).breaker) :
    P ((callSystem.exec s as).pool.backend i).breaker := by
  induction as generalizing s with
  | nil => exact hs
  | cons a as ih =>
    have hstep : P ((s.step a).pool.backend i).breaker := by
      rcases breaker_step (reachable_pool h).1 hv.1 hi with hb | ⟨e, hb⟩
      · exact hb ▸ hs
      · exact hb ▸ hP _ e hs
    have hi' : i < (s.step a).pool.backends.length :=
      Nat.lt_of_lt_of_le hi (length_backends_exec s [a])
    exact ih (System.Reachable.step (M := callSystem) h hv.1) hi' hv.2 hstep

theorem lt_length_of_halfOpen {p : Pool} {i : Nat}
    (h : (p.backend i).breaker.state = .halfOpen) : i < p.backends.length :=
  Pool.lt_length_of_field_ne (fun b => b.breaker.state) (by simp only [h]; decide)

/-- A breaker that is Half-Open before and after a step is in one trial. -/
theorem trial_step {s : CallState} (h : s.pool.Reachable) {a : CallOp} (ha : s.Accepts a)
    {i : Nat} (hs : (s.pool.backend i).breaker.state = .halfOpen)
    (hs' : ((s.step a).pool.backend i).breaker.state = .halfOpen) :
    ((s.step a).pool.backend i).breaker.trial = (s.pool.backend i).breaker.trial := by
  have htrips : ((s.step a).pool.backend i).breaker.trips =
      (s.pool.backend i).breaker.trips := by
    rcases breaker_step h ha (lt_length_of_halfOpen hs) with hb | ⟨e, hb⟩
    · rw [hb]
    · rw [hb] at hs' ⊢
      cases e with
      | poll now => exact CircuitBreaker.poll_trips _ now
      | onSuccess now => exact CircuitBreaker.onSuccess_trips _ now
      | onFailure now => exact absurd hs' (CircuitBreaker.onFailure_ne_halfOpen _ now)
  rw [CircuitBreaker.trial, CircuitBreaker.trial, if_pos hs, if_pos hs', htrips]

/-- The name of a trial is exact: a breaker that is in trial `n` at two moments of a
run has been in it ever since the first. -/
theorem trial_unbroken {s : CallState} (h : s.Reachable) {i n : Nat} {as bs : List CallOp}
    (hv : callSystem.Valid s (as ++ bs)) (hs : (s.pool.backend i).breaker.trial = some n)
    (hs' : ((callSystem.exec s (as ++ bs)).pool.backend i).breaker.trial = some n) :
    ((callSystem.exec s as).pool.backend i).breaker.trial = some n := by
  have hi : i < s.pool.backends.length :=
    lt_length_of_halfOpen (CircuitBreaker.trial_eq_some_iff.mp hs).1
  -- up to the moment between them the trial goes on or is over
  have hmid := breaker_preserved h hi (P := fun b => b.trial = some n ∨ b.Past n)
    (fun b e hb => hb.elim (fun ht => CircuitBreaker.trial_apply ht e)
      (fun hp => Or.inr (hp.apply e))) hv.left (Or.inl hs)
  rcases hmid with htrial | hpast
  · exact htrial
  · -- a trial that is over stays over
    have hi' := Nat.lt_of_lt_of_le hi (length_backends_exec s as)
    have hend := breaker_preserved (System.Reachable.exec h hv.left) hi'
      (P := fun b => b.Past n) (fun b e hb => hb.apply e) hv.right hpast
    rw [System.exec_append] at hs'
    exact absurd hs' hend.trial_ne

/-- A call that was begun after the first `k` of them is one from before the step, or
the step has begun it in the trial of its backend. -/
theorem mem_drop_step {s : CallState} {a : CallOp} (ha : s.Accepts a) {k : Nat}
    (hk : k ≤ s.calls.length) {c : PoolCall} (hc : c ∈ (s.step a).calls.drop k) :
    (∃ d ∈ s.calls.drop k, c.backend = d.backend ∧ c.begunIn = d.begunIn) ∨
    (∃ now key exclude i, a = .start now key exclude ∧ c.backend = i ∧
      c.begunIn = s.trialAt i now) := by
  have hset : ∀ id (d : PoolCall), id < s.calls.length → d.backend = (s.call id).backend →
      d.begunIn = (s.call id).begunIn → c ∈ (s.calls.set id d).drop k →
      ∃ d ∈ s.calls.drop k, c.backend = d.backend ∧ c.begunIn = d.begunIn := by
    intro id d hid hback hbegun hmem
    rw [List.drop_set] at hmem
    split_ifs at hmem with hlt
    · exact ⟨c, hmem, rfl, rfl⟩
    · rcases List.mem_or_eq_of_mem_set hmem with hmem | rfl
      · exact ⟨c, hmem, rfl, rfl⟩
      · have hle : k ≤ id := Nat.le_of_not_lt hlt
        have hget : (s.calls.drop k)[id - k]? = some (s.call id) := by
          rw [List.getElem?_drop, Nat.add_sub_cancel' hle, List.getElem?_eq_getElem hid,
            call_eq_getElem hid]
        exact ⟨s.call id, List.mem_of_getElem? hget, hback, hbegun⟩
  cases a with
  | start now key exclude =>
    have hc : c ∈ (s.calls ++
        (s.picked now key exclude).toList.map (s.begunCall now)).drop k := hc
    rw [List.drop_append_of_le_length hk] at hc
    rcases List.mem_append.mp hc with hc | hc
    · exact Or.inl ⟨c, hc, rfl, rfl⟩
    · obtain ⟨i, _, rfl⟩ := List.mem_map.mp hc
      exact Or.inr ⟨now, key, exclude, i, rfl, rfl, rfl⟩
  | outcome id now o => exact Or.inl (hset id (s.recordedCall id now o) ha.1 rfl rfl hc)
  | finish id => exact Or.inl (hset id { s.call id with ended := true } ha.1 rfl rfl hc)
  | background op => exact Or.inl ⟨c, hc, rfl, rfl⟩

theorem length_calls_step (s : CallState) (a : CallOp) :
    s.calls.length ≤ (s.step a).calls.length := by
  cases a with
  | start now key exclude => simp [step, stepCalls]
  | outcome id now o => exact (List.length_set ..).ge
  | finish id => exact (List.length_set ..).ge
  | background op => exact Nat.le_refl _

theorem length_calls_exec (s : CallState) (as : List CallOp) :
    s.calls.length ≤ (callSystem.exec s as).calls.length := by
  induction as generalizing s with
  | nil => exact Nat.le_refl _
  | cons a as ih => exact (length_calls_step s a).trans (ih _)

/-- The breaker of backend `i` is Half-Open after the step. -/
def HalfOpenAfter (i : Nat) (s : CallState) (a : CallOp) : Prop :=
  ((s.step a).pool.backend i).breaker.state = .halfOpen

instance (i : Nat) (s : CallState) (a : CallOp) : Decidable (HalfOpenAfter i s a) :=
  inferInstanceAs (Decidable (_ = _))

theorem halfOpen_of_always {s : CallState} {i : Nat} {as : List CallOp}
    (hopen : callSystem.Always (HalfOpenAfter i) s as) (hne : as ≠ []) :
    ((callSystem.exec s as).pool.backend i).breaker.state = .halfOpen := by
  rcases List.eq_nil_or_concat as with rfl | ⟨as, x, rfl⟩
  · exact absurd rfl hne
  · rw [List.concat_eq_append] at hopen ⊢
    rw [System.exec_append]
    exact ((System.always_concat_iff _ _ _ _ _).mp hopen).2

/-- The calls begun over a stretch in which a breaker is Half-Open after every step
were begun in the trial at its end. -/
theorem begunIn_of_unbroken {s : CallState} (h : s.Reachable) {i : Nat} {as : List CallOp}
    (hv : callSystem.Valid s as) (hopen : callSystem.Always (HalfOpenAfter i) s as) :
    ∀ c ∈ (callSystem.exec s as).calls.drop s.calls.length, c.backend = i →
      c.begunIn = ((callSystem.exec s as).pool.backend i).breaker.trial := by
  induction as using List.reverseRecOn with
  | nil => simp
  | append_singleton as x ih =>
    have hlast := halfOpen_of_always hopen (by simp)
    obtain ⟨hbefore, _⟩ := (System.always_concat_iff _ _ _ _ _).mp hopen
    have ih := ih hv.left hbefore
    have hacc : (callSystem.exec s as).Accepts x := hv.right.1
    have hpool := (reachable_pool (System.Reachable.exec h hv.left)).1
    have hk := length_calls_exec s as
    rw [System.exec_append] at hlast ⊢
    intro c hc hback
    rcases mem_drop_step hacc hk hc with ⟨d, hd, hcd, hbegun⟩ |
      ⟨now, key, exclude, j, rfl, hj, hbegun⟩
    · have hne : as ≠ [] := by
        intro hnil
        subst hnil
        simp at hd
      rw [hbegun, ih d hd (hcd ▸ hback)]
      exact (trial_step hpool hacc (halfOpen_of_always hbefore hne) hlast).symm
    · obtain rfl : j = i := hj.symm.trans hback
      have hi : j < (callSystem.exec s as).pool.backends.length := by
        rw [← hback]
        exact backend_lt_of_step hpool (reachable_pool (System.Reachable.exec h hv.left)).2
          hacc c (List.mem_of_mem_drop hc)
      rw [hbegun, trialAt, ← (backend_start hi now key exclude).1]
      rfl

/-! ## The contract of a trial -/

/-- The bound on the trial of backend `i` after the stretch `as`: of the calls that were
begun on it in the stretch, no more than the cap have not ended. -/
def TrialsBounded (i : Nat) (s : CallState) (as : List CallOp) : Prop :=
  ((callSystem.exec s as).calls.drop s.calls.length).countP (liveOn i) ≤
    max 1 ((callSystem.exec s as).pool.backend i).breaker.cfg.halfOpenMaxCalls

instance (i : Nat) (s : CallState) (as : List CallOp) : Decidable (TrialsBounded i s as) :=
  inferInstanceAs (Decidable (_ ≤ _))

/-- Half-Open admits a bounded number of concurrent trials, as long as no `begin` finds
`in_flight` at its maximum.  Over a stretch `as` of any run of callers in which the breaker
of a backend is Half-Open after every step, the calls that were begun on it in the stretch
and have not ended are at most the cap, whatever calls from before are in flight or end
meanwhile. -/
theorem halfOpen_trials_bounded {s₀ : CallState} (h₀ : callSystem.init s₀)
    {pre as : List CallOp} (hv : callSystem.Valid s₀ (pre ++ as))
    (hroom : callSystem.Always RoomToBegin s₀ (pre ++ as)) {i : Nat}
    (hopen : callSystem.Always (HalfOpenAfter i) (callSystem.exec s₀ pre) as) :
    TrialsBounded i (callSystem.exec s₀ pre) as := by
  have hreach : (callSystem.exec s₀ pre).Reachable := ⟨s₀, pre, h₀, hv.left, rfl⟩
  have hbegun := begunIn_of_unbroken hreach hv.right hopen
  have htrials := (capped_exec h₀ hv hroom i).trials
    ((callSystem.exec s₀ (pre ++ as)).pool.backend i).breaker.trips
  rw [System.exec_append] at htrials
  unfold TrialsBounded
  generalize callSystem.exec s₀ pre = s at *
  by_cases hne : as = []
  · subst hne
    simp
  · have htrial : ((callSystem.exec s as).pool.backend i).breaker.trial =
        some ((callSystem.exec s as).pool.backend i).breaker.trips :=
      CircuitBreaker.trial_eq_some_iff.mpr ⟨halfOpen_of_always hopen hne, rfl⟩
    refine le_trans ?_ htrials
    refine le_trans (List.countP_mono_left (fun c hc hl => ?_))
      (List.Sublist.countP_le (List.drop_sublist _ _))
    simp [liveTrial, hl, hbegun c hc (liveOn_backend hl), htrial]

/-- A call whose success was counted in trial `n` of backend `i`, in which it was
begun. -/
def ownSuccess (i n : Nat) (c : PoolCall) : Bool := countedIn i n c && c.begunIn == some n

/-- A call whose success was counted in trial `n` of backend `i`, and which was begun
before it. -/
def lateSuccess (i n : Nat) (c : PoolCall) : Bool :=
  countedIn i n c && !(c.begunIn == some n)

theorem countP_countedIn (cs : List PoolCall) (i n : Nat) :
    cs.countP (countedIn i n) = cs.countP (ownSuccess i n) + cs.countP (lateSuccess i n) := by
  rw [List.countP_eq_countP_filter_add cs (countedIn i n) (fun c => c.begunIn == some n),
    List.countP_filter, List.countP_filter]
  rfl

/-- A Half-Open breaker is closed by successes of its trial only.  When a step closes
a breaker that was not closed, the calls on that backend whose success was counted in
the trial reach the threshold; they were begun in the trial or before it. -/
theorem halfOpen_closed_by_successes {s : CallState} (h : s.Reachable) {a : CallOp}
    (ha : s.Accepts a) {i : Nat} (hopen : (s.pool.backend i).breaker.state ≠ .closed)
    (hclosed : ((s.step a).pool.backend i).breaker.state = .closed) :
    (s.pool.backend i).breaker.cfg.successThreshold ≤
      (s.step a).calls.countP (ownSuccess i (s.pool.backend i).breaker.trips) +
        (s.step a).calls.countP (lateSuccess i (s.pool.backend i).breaker.trips) := by
  have hpool := (reachable_pool h).1
  have hi : i < s.pool.backends.length :=
    Pool.lt_length_of_field_ne (fun b => b.breaker.state) hopen
  rw [← countP_countedIn]
  cases callStep hpool ha hi with
  | begins _ _ _ hb _ _ =>
    rw [hb] at hclosed
    exact absurd (CircuitBreaker.poll_closed hclosed) hopen
  | other hb _ _ =>
    rcases hb with hb | ⟨now, hb⟩ <;> rw [hb] at hclosed
    · exact absurd hclosed hopen
    · exact absurd (CircuitBreaker.poll_closed hclosed) hopen
  | @records id now o hid hidx hnew hb _ hcalls =>
    rw [hb] at hclosed
    split_ifs at hclosed with ho
    · exact absurd (CircuitBreaker.onFailure_closed hclosed) hopen
    · obtain ⟨htrial, hle⟩ :=
        (counted_of_reachable h i).closes hopen hclosed
      have hnone := unrecorded_of_reachable h _ (call_mem hid) hnew
      have hcounted : countedIn i (s.pool.backend i).breaker.trips
          (s.recordedCall id now o) = true := by
        simp [countedIn, recordedCall, hidx, ho, trialAt, htrial]
      rw [hcalls, (countP_recordedCall _ _ hid hnone i).2.2, if_pos hcounted]
      exact hle
  | ends _ _ _ hb _ _ =>
    rw [hb] at hclosed
    exact absurd hclosed hopen

/-- A new pool, without callers. -/
def idle : CallState := ⟨.new "api" .roundRobin .default, []⟩

/-- A backend that the first failure trips.  Its first call fails at 10, and a call
at 120 begins a trial. -/
def trialCalls : List CallOp :=
  [.background (.addBackend (Pool.fragile "a")), .start 0 none [], .outcome 0 10 .failure,
    .finish 0, .start 120 none []]

theorem valid_trialCalls : callSystem.Valid idle trialCalls :=
  ⟨⟨rfl, Backend.fresh_new _ _ _ _⟩, trivial, ⟨Nat.zero_lt_succ 0, by decide⟩,
    ⟨Nat.zero_lt_succ 0, by decide⟩, trivial, trivial⟩

theorem reachable_idle {as : List CallOp} (hv : callSystem.Valid idle as) :
    (callSystem.exec idle as).Reachable :=
  ⟨idle, as, ⟨⟨_, _, _, rfl⟩, rfl⟩, hv, rfl⟩

/-- The trial that the call at 120 begins has one call. -/
theorem halfOpen_trials_bounded_one :
    TrialsBounded 0 (callSystem.exec idle (trialCalls.take 4)) [.start 120 none []] := by
  have hv : callSystem.Valid idle (trialCalls.take 4 ++ [.start 120 none []]) :=
    valid_trialCalls
  exact halfOpen_trials_bounded ⟨⟨_, _, _, rfl⟩, rfl⟩ hv (by decide) (by decide)

/-- The backend comes with `in_flight` at its maximum, and the first of three calls takes it
back to zero.  The call fails at 10, and two of the three calls end. -/
def wrappedCalls : List CallOp :=
  [.background (.addBackend { Pool.fragile "a" with inFlight := u32Max }),
    .start 0 none [], .start 0 none [], .start 0 none [], .outcome 0 10 .failure,
    .finish 0, .finish 1]

/-- A trial with a call too many.  The first call of the trial begins at 120, the last of
the calls from before the trip ends, and `in_flight` is zero again for the next one. -/
theorem halfOpen_trials_wrap :
    let stretch : List CallOp := [.start 120 none [], .finish 2, .start 121 none []]
    callSystem.Valid idle (wrappedCalls ++ stretch) ∧
      callSystem.Always (HalfOpenAfter 0) (callSystem.exec idle wrappedCalls) stretch ∧
      ¬ TrialsBounded 0 (callSystem.exec idle wrappedCalls) stretch := by
  refine ⟨⟨⟨rfl, ⟨.default, _, rfl⟩⟩, trivial, trivial, trivial, ⟨by decide, by decide⟩,
    ⟨by decide, by decide⟩, ⟨by decide, by decide⟩, trivial, ⟨by decide, by decide⟩, trivial,
    trivial⟩, by decide, by decide⟩

/-- The success of the trial call closes the breaker. -/
theorem halfOpen_closed_by_successes_one :
    let s := callSystem.exec idle trialCalls
    let t := s.step (.outcome 1 125 .success)
    1 ≤ t.calls.countP (ownSuccess 0 1) + t.calls.countP (lateSuccess 0 1) :=
  halfOpen_closed_by_successes (reachable_idle valid_trialCalls)
    (a := .outcome 1 125 .success) ⟨by decide, by decide⟩ (i := 0) (by decide) (by decide)

/-- Two calls begin at 0.  The first one fails at 10 and trips the breaker; the
second one is slow.  A poll at 120 starts the trial, and no call is begun in it. -/
def slowCalls : List CallOp :=
  [.background (.addBackend (Pool.fragile "a")), .start 0 none [], .start 0 none [],
    .outcome 0 10 .failure, .finish 0, .background (.poll 120)]

/-- The late success of the slow call closes the breaker, without a call of the
trial. -/
theorem halfOpen_closed_late :
    let s := callSystem.exec idle slowCalls
    let t := s.step (.outcome 1 125 .success)
    callSystem.Valid idle (slowCalls ++ [.outcome 1 125 .success]) ∧
    (s.pool.backend 0).breaker.state = .halfOpen ∧ (s.pool.backend 0).breaker.trips = 1 ∧
    (t.pool.backend 0).breaker.state = .closed ∧
    1 ≤ (s.pool.backend 0).breaker.cfg.successThreshold ∧
    t.calls.countP (ownSuccess 0 1) = 0 ∧ (∀ c ∈ t.calls, c.begunIn = none) := by
  refine ⟨⟨⟨rfl, Backend.fresh_new _ _ _ _⟩, trivial, trivial, ⟨by decide, by decide⟩,
    ⟨by decide, by decide⟩, ⟨rfl, trivial⟩, ⟨by decide, by decide⟩, trivial⟩,
    by decide, by decide, by decide, by decide, by decide, by decide⟩

end CallState

end Echofront
