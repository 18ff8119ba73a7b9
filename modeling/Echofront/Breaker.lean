import Echofront.Machine

/-!
# The circuit breaker

`CircuitBreaker` of `src/breaker.rs`: the three states, the two run counters
and the time of the last trip.  `poll` is the only transition the clock drives;
`onSuccess` and `onFailure` poll first and then look at the state.

The `_cases` lemmas say once what each transition can do.  Later modules cite
them and do not unfold the transitions again.
-/

namespace Echofront

/-- `BreakerState`. -/
inductive BreakerState where
  | closed
  | open
  | halfOpen
deriving DecidableEq, Repr

/-- `BreakerConfig`.  The two thresholds carry their `u32` range. -/
structure BreakerConfig where
  failureThreshold : Nat
  successThreshold : Nat
  cooldownMs : Nat
  halfOpenMaxCalls : Nat
  failureThreshold_le : failureThreshold ≤ u32Max := by decide
  successThreshold_le : successThreshold ≤ u32Max := by decide
deriving DecidableEq, Repr

/-- `BreakerConfig::default`. -/
def BreakerConfig.default : BreakerConfig where
  failureThreshold := 5
  successThreshold := 2
  cooldownMs := 5000
  halfOpenMaxCalls := 1

instance : Inhabited BreakerConfig := ⟨BreakerConfig.default⟩

/-- `CircuitBreaker`. -/
structure CircuitBreaker where
  cfg : BreakerConfig
  state : BreakerState
  consecutiveFailures : Nat
  consecutiveSuccesses : Nat
  openedAt : Nat
  trips : Nat
deriving DecidableEq, Repr

namespace CircuitBreaker

def new (cfg : BreakerConfig) : CircuitBreaker where
  cfg := cfg
  state := .closed
  consecutiveFailures := 0
  consecutiveSuccesses := 0
  openedAt := 0
  trips := 0

instance : Inhabited CircuitBreaker := ⟨new Inhabited.default⟩

def poll (b : CircuitBreaker) (now : Nat) : CircuitBreaker :=
  if b.state = .open ∧ b.cfg.cooldownMs ≤ now - b.openedAt then
    { b with state := .halfOpen, consecutiveSuccesses := 0 }
  else b

def isCallable (b : CircuitBreaker) (now : Nat) : Bool :=
  match b.state with
  | .closed | .halfOpen => true
  | .open => decide (b.cfg.cooldownMs ≤ now - b.openedAt)

def admits (b : CircuitBreaker) (now inFlight : Nat) : Bool :=
  if !b.isCallable now then false
  else
    match b.state with
    | .halfOpen => decide (inFlight < max b.cfg.halfOpenMaxCalls 1)
    | _ => true

def trip (b : CircuitBreaker) (now : Nat) : CircuitBreaker :=
  { b with
    state := .open
    openedAt := now
    consecutiveFailures := 0
    consecutiveSuccesses := 0
    trips := b.trips + 1 }

/-- The `HalfOpen` branch of `on_success`. -/
def countTrial (b : CircuitBreaker) : CircuitBreaker :=
  let b := { b with consecutiveSuccesses := incr32 b.consecutiveSuccesses }
  if b.cfg.successThreshold ≤ b.consecutiveSuccesses then
    { b with state := .closed, consecutiveFailures := 0, consecutiveSuccesses := 0 }
  else b

def onSuccess (b : CircuitBreaker) (now : Nat) : CircuitBreaker :=
  let b := b.poll now
  match b.state with
  | .closed => { b with consecutiveFailures := 0 }
  | .halfOpen => b.countTrial
  | .open => b

/-- The `Closed` branch of `on_failure`. -/
def countFailure (b : CircuitBreaker) (now : Nat) : CircuitBreaker :=
  let b := { b with consecutiveFailures := incr32 b.consecutiveFailures }
  if b.cfg.failureThreshold ≤ b.consecutiveFailures then b.trip now else b

def onFailure (b : CircuitBreaker) (now : Nat) : CircuitBreaker :=
  let b := b.poll now
  match b.state with
  | .closed => b.countFailure now
  | .halfOpen => b.trip now
  | .open => b

/-! ## What a transition can do -/

/-- A poll promotes a cooled breaker and does nothing else. -/
theorem poll_cases (b : CircuitBreaker) (now : Nat) :
    (b.state = .open ∧ b.cfg.cooldownMs ≤ now - b.openedAt ∧
      b.poll now = { b with state := .halfOpen, consecutiveSuccesses := 0 }) ∨
    (b.poll now = b ∧
      (b.state = .open → now - b.openedAt < b.cfg.cooldownMs)) := by
  unfold poll
  split_ifs with h
  · exact Or.inl ⟨h.1, h.2, rfl⟩
  · refine Or.inr ⟨rfl, fun ho => ?_⟩
    by_contra hle
    exact h ⟨ho, Nat.le_of_not_lt hle⟩

@[simp] theorem poll_cfg (b : CircuitBreaker) (now : Nat) :
    (b.poll now).cfg = b.cfg := by
  unfold poll; split_ifs <;> rfl

@[simp] theorem poll_openedAt (b : CircuitBreaker) (now : Nat) :
    (b.poll now).openedAt = b.openedAt := by
  unfold poll; split_ifs <;> rfl

@[simp] theorem poll_trips (b : CircuitBreaker) (now : Nat) :
    (b.poll now).trips = b.trips := by
  unfold poll; split_ifs <;> rfl

/-- After a poll an open breaker is still cooling. -/
theorem cooling_of_poll {b : CircuitBreaker} {now : Nat}
    (h : (b.poll now).state = .open) :
    b.state = .open ∧ now - b.openedAt < b.cfg.cooldownMs ∧ b.poll now = b := by
  rcases poll_cases b now with ⟨_, _, he⟩ | ⟨he, hc⟩
  · rw [he] at h
    simp at h
  · rw [he] at h
    exact ⟨h, hc h, he⟩

/-- After a poll an open breaker is not callable. -/
theorem isCallable_poll_of_open {b : CircuitBreaker} {now : Nat}
    (h : (b.poll now).state = .open) : (b.poll now).isCallable now = false := by
  obtain ⟨ho, hc, he⟩ := cooling_of_poll h
  rw [he]
  simp [isCallable, ho, hc]

/-- Callability read without a poll already answers for the time it is given. -/
theorem isCallable_eq (b : CircuitBreaker) (now : Nat) :
    b.isCallable now = decide ((b.poll now).state ≠ .open) := by
  rcases poll_cases b now with ⟨ho, hc, he⟩ | ⟨he, hc⟩
  · simp [isCallable, he, ho, hc]
  · cases hs : b.state with
    | closed => simp [isCallable, he, hs]
    | halfOpen => simp [isCallable, he, hs]
    | «open» =>
      have hcool : ¬ b.cfg.cooldownMs ≤ now - b.openedAt := Nat.not_le_of_lt (hc hs)
      simp [isCallable, he, hs, hcool]

/-- The admission rule by state. -/
theorem admits_eq_true_iff (b : CircuitBreaker) (now inFlight : Nat) :
    b.admits now inFlight = true ↔
      b.state = .closed ∨
      (b.state = .halfOpen ∧ inFlight < max b.cfg.halfOpenMaxCalls 1) ∨
      (b.state = .open ∧ b.cfg.cooldownMs ≤ now - b.openedAt) := by
  cases hs : b.state <;> simp [admits, isCallable, hs]

/-- The four ways a success can go, by the state after the poll. -/
theorem onSuccess_cases (b : CircuitBreaker) (now : Nat) :
    ((b.poll now).state = .closed ∧
      b.onSuccess now = { b.poll now with consecutiveFailures := 0 }) ∨
    ((b.poll now).state = .halfOpen ∧
      b.cfg.successThreshold ≤ incr32 (b.poll now).consecutiveSuccesses ∧
      b.onSuccess now =
        { b.poll now with
          state := .closed, consecutiveFailures := 0, consecutiveSuccesses := 0 }) ∨
    ((b.poll now).state = .halfOpen ∧
      incr32 (b.poll now).consecutiveSuccesses < b.cfg.successThreshold ∧
      b.onSuccess now =
        { b.poll now with
          consecutiveSuccesses := incr32 (b.poll now).consecutiveSuccesses }) ∨
    ((b.poll now).state = .open ∧ b.onSuccess now = b.poll now) := by
  rw [← poll_cfg b now]
  cases hs : (b.poll now).state with
  | closed => exact Or.inl ⟨rfl, by simp [onSuccess, hs]⟩
  | «open» => exact Or.inr (Or.inr (Or.inr ⟨rfl, by simp [onSuccess, hs]⟩))
  | halfOpen =>
    by_cases hdone :
        (b.poll now).cfg.successThreshold ≤ incr32 (b.poll now).consecutiveSuccesses
    · refine Or.inr (Or.inl ⟨rfl, hdone, ?_⟩)
      simp only [onSuccess, hs, countTrial, if_pos hdone]
    · refine Or.inr (Or.inr (Or.inl ⟨rfl, Nat.lt_of_not_le hdone, ?_⟩))
      simp only [onSuccess, hs, countTrial, if_neg hdone]

/-- The three ways a failure can go, by the state after the poll.  A trip
forgets both run counters, so the increment before it leaves no trace. -/
theorem onFailure_cases (b : CircuitBreaker) (now : Nat) :
    ((b.poll now).state ≠ .open ∧ b.onFailure now = (b.poll now).trip now) ∨
    ((b.poll now).state = .closed ∧
      incr32 (b.poll now).consecutiveFailures < b.cfg.failureThreshold ∧
      b.onFailure now =
        { b.poll now with
          consecutiveFailures := incr32 (b.poll now).consecutiveFailures }) ∨
    ((b.poll now).state = .open ∧ b.onFailure now = b.poll now) := by
  rw [← poll_cfg b now]
  cases hs : (b.poll now).state with
  | «open» => exact Or.inr (Or.inr ⟨rfl, by simp [onFailure, hs]⟩)
  | halfOpen => exact Or.inl ⟨by decide, by simp [onFailure, hs]⟩
  | closed =>
    by_cases htrip :
        (b.poll now).cfg.failureThreshold ≤ incr32 (b.poll now).consecutiveFailures
    · refine Or.inl ⟨by decide, ?_⟩
      simp only [onFailure, hs, countFailure, if_pos htrip, trip]
    · refine Or.inr (Or.inl ⟨rfl, Nat.lt_of_not_le htrip, ?_⟩)
      simp only [onFailure, hs, countFailure, if_neg htrip]

@[simp] theorem onSuccess_cfg (b : CircuitBreaker) (now : Nat) :
    (b.onSuccess now).cfg = b.cfg := by
  rcases onSuccess_cases b now with ⟨_, h⟩ | ⟨_, _, h⟩ | ⟨_, _, h⟩ | ⟨_, h⟩ <;>
    simp [h]

@[simp] theorem onSuccess_openedAt (b : CircuitBreaker) (now : Nat) :
    (b.onSuccess now).openedAt = b.openedAt := by
  rcases onSuccess_cases b now with ⟨_, h⟩ | ⟨_, _, h⟩ | ⟨_, _, h⟩ | ⟨_, h⟩ <;>
    simp [h]

@[simp] theorem onSuccess_trips (b : CircuitBreaker) (now : Nat) :
    (b.onSuccess now).trips = b.trips := by
  rcases onSuccess_cases b now with ⟨_, h⟩ | ⟨_, _, h⟩ | ⟨_, _, h⟩ | ⟨_, h⟩ <;>
    simp [h]

@[simp] theorem onFailure_cfg (b : CircuitBreaker) (now : Nat) :
    (b.onFailure now).cfg = b.cfg := by
  rcases onFailure_cases b now with ⟨_, h⟩ | ⟨_, _, h⟩ | ⟨_, h⟩ <;>
    simp [h, trip]

/-- A success neither opens a breaker nor leaves a cooling one. -/
theorem onSuccess_open_iff (b : CircuitBreaker) (now : Nat) :
    (b.onSuccess now).state = .open ↔ (b.poll now).state = .open := by
  rcases onSuccess_cases b now with ⟨hs, h⟩ | ⟨hs, _, h⟩ | ⟨hs, _, h⟩ | ⟨hs, h⟩ <;>
    simp [h, hs]

end CircuitBreaker

/-! ## Calls on a breaker -/

/-- One call on a breaker. -/
inductive BreakerEvent where
  | poll (now : Nat)
  | onSuccess (now : Nat)
  | onFailure (now : Nat)
deriving DecidableEq, Repr

/-- The time an event is called with. -/
def BreakerEvent.now : BreakerEvent → Nat
  | .poll now | .onSuccess now | .onFailure now => now

namespace CircuitBreaker

def apply (b : CircuitBreaker) : BreakerEvent → CircuitBreaker
  | .poll now => b.poll now
  | .onSuccess now => b.onSuccess now
  | .onFailure now => b.onFailure now

@[simp] theorem apply_cfg (b : CircuitBreaker) (e : BreakerEvent) :
    (b.apply e).cfg = b.cfg := by
  cases e <;> simp [apply]

/-- No call changes a breaker that is cooling. -/
theorem apply_of_cooling {b : CircuitBreaker} (e : BreakerEvent)
    (ho : b.state = .open) (hc : e.now - b.openedAt < b.cfg.cooldownMs) :
    b.apply e = b := by
  have hpoll : b.poll e.now = b := by
    simp [poll, Nat.not_le_of_lt hc]
  cases e with
  | poll now => exact hpoll
  | onSuccess now =>
    simp only [BreakerEvent.now] at hpoll
    simp [apply, onSuccess, hpoll, ho]
  | onFailure now =>
    simp only [BreakerEvent.now] at hpoll
    simp [apply, onFailure, hpoll, ho]

/-- A breaker that is open after a call was open before it since the same
time, or the call tripped it. -/
theorem apply_open_cases {b : CircuitBreaker} {e : BreakerEvent}
    (h : (b.apply e).state = .open) :
    (b.state = .open ∧ (b.apply e).openedAt = b.openedAt) ∨
    (b.trips < (b.apply e).trips ∧ (b.apply e).openedAt = e.now) := by
  cases e with
  | poll now => exact Or.inl ⟨(cooling_of_poll h).1, poll_openedAt b now⟩
  | onSuccess now =>
    have hp := (onSuccess_open_iff b now).mp h
    exact Or.inl ⟨(cooling_of_poll hp).1, onSuccess_openedAt b now⟩
  | onFailure now =>
    simp only [apply, BreakerEvent.now] at h ⊢
    rcases onFailure_cases b now with ⟨_, ht⟩ | ⟨hs, _, ht⟩ | ⟨hs, ht⟩
    · exact Or.inr (by simp [ht, trip])
    · rw [ht] at h
      exact absurd (h.symm.trans hs) (by decide)
    · exact Or.inl ⟨(cooling_of_poll hs).1, by simp [ht]⟩

/-- A call that adds a trip leaves the breaker open since its own time. -/
theorem apply_of_trips_lt {b : CircuitBreaker} {e : BreakerEvent}
    (h : b.trips < (b.apply e).trips) :
    (b.apply e).state = .open ∧ (b.apply e).openedAt = e.now := by
  cases e with
  | poll now => simp [apply] at h
  | onSuccess now => simp [apply] at h
  | onFailure now =>
    simp only [apply, BreakerEvent.now] at h ⊢
    rcases onFailure_cases b now with ⟨_, ht⟩ | ⟨_, _, ht⟩ | ⟨_, ht⟩
    · rw [ht]
      exact ⟨rfl, rfl⟩
    · simp [ht] at h
    · simp [ht] at h

end CircuitBreaker

end Echofront
