import Echofront.Breaker
import Echofront.Lib.Run

/-!
# The breaker against its reference machine

`RefBreaker` is the machine `Closed(f)`, `Open(since)`, `Half(s)` that
`tests/gates.rs` writes to the same transition rules.  It has one counter, the
one its state needs; the real breaker keeps both counters and the trip time at
all times.

`Agrees` is the simulation relation.  It says more than the test does: the
counter that the state needs has the reference value and is below its
threshold, so an increment never reaches the top of `u32`.  `agrees_apply` is
the step lemma, and `agrees_exec` carries it over a run of events with any
times.
-/

namespace Echofront

open Lib

/-- `RefState`. -/
inductive RefState where
  | closed (f : Nat)
  | open (since : Nat)
  | half (s : Nat)
deriving DecidableEq, Repr

/-- `RefBreaker`. -/
structure RefBreaker where
  failThresh : Nat
  succThresh : Nat
  cooldown : Nat
  state : RefState
deriving DecidableEq, Repr

namespace RefBreaker

def new (cfg : BreakerConfig) : RefBreaker where
  failThresh := cfg.failureThreshold
  succThresh := cfg.successThreshold
  cooldown := cfg.cooldownMs
  state := .closed 0

def poll (r : RefBreaker) (now : Nat) : RefBreaker :=
  match r.state with
  | .open since =>
    if r.cooldown ≤ now - since then { r with state := .half 0 } else r
  | _ => r

def onSuccess (r : RefBreaker) (now : Nat) : RefBreaker :=
  let r := r.poll now
  { r with
    state := match r.state with
      | .closed _ => .closed 0
      | .half s => if r.succThresh ≤ s + 1 then .closed 0 else .half (s + 1)
      | .open x => .open x }

def onFailure (r : RefBreaker) (now : Nat) : RefBreaker :=
  let r := r.poll now
  { r with
    state := match r.state with
      | .closed f => if r.failThresh ≤ f + 1 then .open now else .closed (f + 1)
      | .half _ => .open now
      | .open x => .open x }

/-- Whether the state is `Open`. -/
def isOpen (r : RefBreaker) : Bool :=
  match r.state with
  | .open _ => true
  | _ => false

end RefBreaker

def RefBreaker.apply (r : RefBreaker) : BreakerEvent → RefBreaker
  | .poll now => r.poll now
  | .onSuccess now => r.onSuccess now
  | .onFailure now => r.onFailure now

/-- The real breaker as a system over events. -/
def breakerSystem : System CircuitBreaker BreakerEvent where
  init b := ∃ cfg, b = .new cfg
  ok _ _ := True
  step := CircuitBreaker.apply

/-- The reference machine as a system over events. -/
def refSystem : System RefBreaker BreakerEvent where
  init r := ∃ cfg, r = .new cfg
  ok _ _ := True
  step := RefBreaker.apply

/-- Whether an event makes a transition into `Open`.  Every event polls first,
so a failure that meets a cooled `Open` breaker enters `Open` again through
`Half`. -/
def RefBreaker.entersOpen (r : RefBreaker) (e : BreakerEvent) : Bool :=
  !(r.poll e.now).isOpen && (r.apply e).isOpen

/-- The number of transitions into `Open` that a run makes. -/
def RefBreaker.opens : RefBreaker → List BreakerEvent → Nat
  | _, [] => 0
  | r, e :: es => (if r.entersOpen e then 1 else 0) + (r.apply e).opens es

/-! ## The simulation relation -/

/-- The state and the counter that the state needs. -/
def Matches (b : CircuitBreaker) : RefState → Prop
  | .closed f => b.state = .closed ∧ b.consecutiveFailures = f
  | .open since => b.state = .open ∧ b.openedAt = since
  | .half s => b.state = .halfOpen ∧ b.consecutiveSuccesses = s

/-- The run counters are in range: each is `0` or below its threshold in the
state that counts it. -/
structure CountersBounded (b : CircuitBreaker) : Prop where
  closed : b.state = .closed →
    b.consecutiveFailures = 0 ∨ b.consecutiveFailures < b.cfg.failureThreshold
  halfOpen : b.state = .halfOpen →
    b.consecutiveSuccesses = 0 ∨ b.consecutiveSuccesses < b.cfg.successThreshold

/-- The simulation relation. -/
structure Agrees (b : CircuitBreaker) (r : RefBreaker) : Prop where
  failThresh : r.failThresh = b.cfg.failureThreshold
  succThresh : r.succThresh = b.cfg.successThreshold
  cooldown : r.cooldown = b.cfg.cooldownMs
  state : Matches b r.state
  bounded : CountersBounded b

/-- In `Closed` there is room for one more failure. -/
theorem CountersBounded.failures_lt {b : CircuitBreaker} (h : CountersBounded b)
    (hs : b.state = .closed) : b.consecutiveFailures < u32Max := by
  have hle := b.cfg.failureThreshold_le
  have hpos : 0 < u32Max := by decide
  rcases h.closed hs with h0 | hlt <;> omega

/-- In `HalfOpen` there is room for one more success. -/
theorem CountersBounded.successes_lt {b : CircuitBreaker} (h : CountersBounded b)
    (hs : b.state = .halfOpen) : b.consecutiveSuccesses < u32Max := by
  have hle := b.cfg.successThreshold_le
  have hpos : 0 < u32Max := by decide
  rcases h.halfOpen hs with h0 | hlt <;> omega

theorem agrees_new (cfg : BreakerConfig) : Agrees (.new cfg) (.new cfg) where
  failThresh := rfl
  succThresh := rfl
  cooldown := rfl
  state := ⟨rfl, rfl⟩
  bounded := ⟨fun _ => Or.inl rfl, fun h => absurd h (by simp [CircuitBreaker.new])⟩

/-- A poll keeps the relation.  Only a cooled `Open` moves, on both sides. -/
theorem agrees_poll {b : CircuitBreaker} {r : RefBreaker} (h : Agrees b r)
    (now : Nat) : Agrees (b.poll now) (r.poll now) := by
  have hst := h.state
  rcases hr : r.state with f | since | s
  · rw [hr] at hst
    have hbp : b.poll now = b := by simp [CircuitBreaker.poll, hst.1]
    have hrp : r.poll now = r := by simp [RefBreaker.poll, hr]
    rw [hbp, hrp]
    exact h
  · rw [hr] at hst
    obtain ⟨ho, hat⟩ := hst
    by_cases hcool : b.cfg.cooldownMs ≤ now - since
    · have hbp : b.poll now = { b with state := .halfOpen, consecutiveSuccesses := 0 } := by
        simp [CircuitBreaker.poll, ho, hat, hcool]
      have hrp : r.poll now = { r with state := .half 0 } := by
        simp [RefBreaker.poll, hr, h.cooldown, hcool]
      rw [hbp, hrp]
      exact ⟨h.failThresh, h.succThresh, h.cooldown, ⟨rfl, rfl⟩,
        ⟨fun hs => by simp at hs, fun _ => Or.inl rfl⟩⟩
    · have hbp : b.poll now = b := by simp [CircuitBreaker.poll, hat, hcool]
      have hrp : r.poll now = r := by simp [RefBreaker.poll, hr, h.cooldown, hcool]
      rw [hbp, hrp]
      exact h
  · rw [hr] at hst
    have hbp : b.poll now = b := by simp [CircuitBreaker.poll, hst.1]
    have hrp : r.poll now = r := by simp [RefBreaker.poll, hr]
    rw [hbp, hrp]
    exact h

/-- A trip on both sides. -/
theorem agrees_trip {b : CircuitBreaker} {r : RefBreaker} (h : Agrees b r)
    (now : Nat) : Agrees (b.trip now) { r with state := .open now } :=
  ⟨h.failThresh, h.succThresh, h.cooldown, ⟨rfl, rfl⟩,
    ⟨fun hs => by simp [CircuitBreaker.trip] at hs,
      fun hs => by simp [CircuitBreaker.trip] at hs⟩⟩

theorem agrees_onSuccess {b : CircuitBreaker} {r : RefBreaker} (h : Agrees b r)
    (now : Nat) : Agrees (b.onSuccess now) (r.onSuccess now) := by
  obtain ⟨hf, hsu, hc, hst, hb⟩ := agrees_poll h now
  rcases hr : (r.poll now).state with f | since | s
  · rw [hr] at hst
    have hr' : r.onSuccess now = { r.poll now with state := .closed 0 } := by
      simp [RefBreaker.onSuccess, hr]
    have hb' : b.onSuccess now = { b.poll now with consecutiveFailures := 0 } := by
      simp [CircuitBreaker.onSuccess, hst.1]
    rw [hb', hr']
    exact ⟨hf, hsu, hc, ⟨hst.1, rfl⟩,
      ⟨fun _ => Or.inl rfl, fun hs => by simp [hst.1] at hs⟩⟩
  · rw [hr] at hst
    have hr' : r.onSuccess now = { r.poll now with state := .open since } := by
      simp [RefBreaker.onSuccess, hr]
    have hb' : b.onSuccess now = b.poll now := by
      simp [CircuitBreaker.onSuccess, hst.1]
    rw [hb', hr']
    exact ⟨hf, hsu, hc, hst, hb⟩
  · rw [hr] at hst
    have hinc : incr32 (b.poll now).consecutiveSuccesses = s + 1 := by
      rw [incr32_eq (hb.successes_lt hst.1), hst.2]
    by_cases hdone : (b.poll now).cfg.successThreshold ≤ s + 1
    · have hr' : r.onSuccess now = { r.poll now with state := .closed 0 } := by
        simp only [RefBreaker.onSuccess, hr, hsu, if_pos hdone]
      have hb' : b.onSuccess now = { b.poll now with
          state := .closed, consecutiveFailures := 0, consecutiveSuccesses := 0 } := by
        simp only [CircuitBreaker.onSuccess, hst.1, CircuitBreaker.countTrial, hinc,
          if_pos hdone]
      rw [hb', hr']
      exact ⟨hf, hsu, hc, ⟨rfl, rfl⟩, ⟨fun _ => Or.inl rfl, fun hs => by simp at hs⟩⟩
    · have hr' : r.onSuccess now = { r.poll now with state := .half (s + 1) } := by
        simp only [RefBreaker.onSuccess, hr, hsu, if_neg hdone]
      have hb' : b.onSuccess now =
          { b.poll now with consecutiveSuccesses := s + 1 } := by
        simp only [CircuitBreaker.onSuccess, hst.1, CircuitBreaker.countTrial, hinc,
          if_neg hdone]
      rw [hb', hr']
      exact ⟨hf, hsu, hc, ⟨hst.1, rfl⟩,
        ⟨fun hs => by simp [hst.1] at hs, fun _ => Or.inr (Nat.lt_of_not_le hdone)⟩⟩

theorem agrees_onFailure {b : CircuitBreaker} {r : RefBreaker} (h : Agrees b r)
    (now : Nat) : Agrees (b.onFailure now) (r.onFailure now) := by
  have hp := agrees_poll h now
  have ⟨hf, hsu, hc, hst, hb⟩ := hp
  rcases hr : (r.poll now).state with f | since | s
  · rw [hr] at hst
    have hinc : incr32 (b.poll now).consecutiveFailures = f + 1 := by
      rw [incr32_eq (hb.failures_lt hst.1), hst.2]
    by_cases htrip : (b.poll now).cfg.failureThreshold ≤ f + 1
    · have hr' : r.onFailure now = { r.poll now with state := .open now } := by
        simp only [RefBreaker.onFailure, hr, hf, if_pos htrip]
      have hb' : b.onFailure now = (b.poll now).trip now := by
        simp only [CircuitBreaker.onFailure, hst.1, CircuitBreaker.countFailure, hinc,
          if_pos htrip, CircuitBreaker.trip]
      rw [hb', hr']
      exact agrees_trip hp now
    · have hr' : r.onFailure now = { r.poll now with state := .closed (f + 1) } := by
        simp only [RefBreaker.onFailure, hr, hf, if_neg htrip]
      have hb' : b.onFailure now = { b.poll now with consecutiveFailures := f + 1 } := by
        simp only [CircuitBreaker.onFailure, hst.1, CircuitBreaker.countFailure, hinc,
          if_neg htrip]
      rw [hb', hr']
      exact ⟨hf, hsu, hc, ⟨hst.1, rfl⟩,
        ⟨fun _ => Or.inr (Nat.lt_of_not_le htrip), fun hs => by simp [hst.1] at hs⟩⟩
  · rw [hr] at hst
    have hr' : r.onFailure now = { r.poll now with state := .open since } := by
      simp [RefBreaker.onFailure, hr]
    have hb' : b.onFailure now = b.poll now := by
      simp [CircuitBreaker.onFailure, hst.1]
    rw [hb', hr']
    exact ⟨hf, hsu, hc, hst, hb⟩
  · rw [hr] at hst
    have hr' : r.onFailure now = { r.poll now with state := .open now } := by
      simp [RefBreaker.onFailure, hr]
    have hb' : b.onFailure now = (b.poll now).trip now := by
      simp [CircuitBreaker.onFailure, hst.1]
    rw [hb', hr']
    exact agrees_trip hp now

/-- The step lemma of the simulation. -/
theorem agrees_apply {b : CircuitBreaker} {r : RefBreaker} (h : Agrees b r)
    (e : BreakerEvent) : Agrees (b.apply e) (r.apply e) := by
  cases e with
  | poll now => exact agrees_poll h now
  | onSuccess now => exact agrees_onSuccess h now
  | onFailure now => exact agrees_onFailure h now

/-- The simulation over a run. -/
theorem agrees_exec (cfg : BreakerConfig) (es : List BreakerEvent) :
    Agrees (breakerSystem.exec (.new cfg) es) (refSystem.exec (.new cfg) es) :=
  System.simulation (M := breakerSystem) (N := refSystem) (R := Agrees)
    (fun _ _ e h => agrees_apply h e) (agrees_new cfg) es

/-! ## Trips -/

/-- The two machines are open together. -/
theorem Agrees.isOpen_eq {b : CircuitBreaker} {r : RefBreaker}
    (h : Agrees b r) : r.isOpen = decide (b.state = .open) := by
  have hst := h.state
  unfold RefBreaker.isOpen
  generalize r.state = s at hst ⊢
  cases s <;> simp [hst.1]

/-- One event adds one trip exactly when it enters `Open`. -/
theorem Agrees.trips_apply {b : CircuitBreaker} {r : RefBreaker}
    (h : Agrees b r) (e : BreakerEvent) :
    (b.apply e).trips = b.trips + if r.entersOpen e then 1 else 0 := by
  unfold RefBreaker.entersOpen
  rw [(agrees_poll h e.now).isOpen_eq, (agrees_apply h e).isOpen_eq]
  cases e with
  | poll now =>
    by_cases ho : (b.poll now).state = .open <;>
      simp [CircuitBreaker.apply, BreakerEvent.now, ho]
  | onSuccess now =>
    by_cases ho : (b.poll now).state = .open <;>
      simp [CircuitBreaker.apply, BreakerEvent.now,
        CircuitBreaker.onSuccess_open_iff, ho]
  | onFailure now =>
    simp only [CircuitBreaker.apply, BreakerEvent.now]
    rcases b.onFailure_cases now with ⟨hs, ht⟩ | ⟨hs, _, ht⟩ | ⟨hs, ht⟩ <;>
      simp [ht, hs, CircuitBreaker.trip]

theorem trips_exec {b : CircuitBreaker} {r : RefBreaker} (h : Agrees b r)
    (es : List BreakerEvent) :
    (breakerSystem.exec b es).trips = b.trips + r.opens es := by
  induction es generalizing b r with
  | nil => rfl
  | cons e es ih =>
    have hstep := h.trips_apply e
    rw [System.exec_cons, RefBreaker.opens, ← Nat.add_assoc, ← hstep]
    exact ih (agrees_apply h e)

theorem breaker_exec_cfg (b : CircuitBreaker) (es : List BreakerEvent) :
    (breakerSystem.exec b es).cfg = b.cfg := by
  induction es generalizing b with
  | nil => rfl
  | cons e es ih =>
    rw [System.exec_cons, ih]
    exact b.apply_cfg e

/-- The breaker refines the reference machine over every run of events, with
times in any order.  The state and its counter agree, callability needs no poll
before it, an open breaker admits nothing after a poll, the trip counter counts
the transitions into `Open`, and both run counters stay in range with room for
the next increment. -/
theorem breaker_refines_reference (cfg : BreakerConfig) (es : List BreakerEvent) :
    let b := breakerSystem.exec (.new cfg) es
    let r := refSystem.exec (.new cfg) es
    Matches b r.state ∧
    (∀ now, b.isCallable now = decide ((b.poll now).state ≠ .open)) ∧
    (∀ now inFlight, (b.poll now).state = .open →
      (b.poll now).isCallable now = false ∧
        (b.poll now).admits now inFlight = false) ∧
    b.trips = (RefBreaker.new cfg).opens es ∧
    (b.state = .closed →
      b.consecutiveFailures = 0 ∨ b.consecutiveFailures < cfg.failureThreshold) ∧
    (b.state = .halfOpen →
      b.consecutiveSuccesses = 0 ∨ b.consecutiveSuccesses < cfg.successThreshold) ∧
    (∀ now, (b.poll now).state = .closed →
      (b.poll now).consecutiveFailures + 1 ≤ u32Max) ∧
    (∀ now, (b.poll now).state = .halfOpen →
      (b.poll now).consecutiveSuccesses + 1 ≤ u32Max) := by
  intro b r
  have hagree : Agrees b r := agrees_exec cfg es
  have hcfg : b.cfg = cfg := breaker_exec_cfg _ es
  have htrips : b.trips = 0 + (RefBreaker.new cfg).opens es :=
    trips_exec (agrees_new cfg) es
  refine ⟨hagree.state, fun now => b.isCallable_eq now, ?_, ?_, ?_, ?_, ?_, ?_⟩
  · intro now inFlight ho
    have hcall := CircuitBreaker.isCallable_poll_of_open ho
    exact ⟨hcall, by simp [CircuitBreaker.admits, hcall]⟩
  · rw [htrips, Nat.zero_add]
  · rw [← hcfg]
    exact hagree.bounded.closed
  · rw [← hcfg]
    exact hagree.bounded.halfOpen
  · intro now hs
    exact (agrees_poll hagree now).bounded.failures_lt hs
  · intro now hs
    exact (agrees_poll hagree now).bounded.successes_lt hs

end Echofront
