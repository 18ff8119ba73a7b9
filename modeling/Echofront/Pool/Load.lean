import Echofront.BreakerRef
import Echofront.Lib.Project
import Echofront.Pool.Quarantine

/-!
# The load on a failing backend

How many failures a breaker can count within a time.  A failure counts unless the
breaker is open when it is recorded; so this bounds the calls that a failing backend
gets from callers that poll and select before they call.

* `CircuitBreaker.slack` is the potential: the failures that the breaker can still count
  until `T`.  In `Closed` it may count up to its threshold; each later one costs a
  cooldown.
* `slack_poll`, `slack_onSuccess` and `slack_onFailure` say what a breaker call does to
  it.
* `strikes_le` is the bound on runs of pool calls, by the potential method.
-/

namespace Echofront

open Lib

namespace CircuitBreaker

/-- The failures that the breaker can count from `t` to `T`, if no success comes
between. -/
def slack (T t : Nat) (b : CircuitBreaker) : Nat :=
  match b.state with
  | .closed =>
    max 1 (b.cfg.failureThreshold - b.consecutiveFailures) + (T - t) / b.cfg.cooldownMs
  | .halfOpen => 1 + (T - t) / b.cfg.cooldownMs
  | .open =>
    (T + b.cfg.cooldownMs - max (b.openedAt + b.cfg.cooldownMs) t) / b.cfg.cooldownMs

section Slack

variable {b : CircuitBreaker} {T t now : Nat}

theorem slack_closed (h : b.state = .closed) : b.slack T t =
    max 1 (b.cfg.failureThreshold - b.consecutiveFailures) +
      (T - t) / b.cfg.cooldownMs := by
  simp only [slack, h]

theorem slack_halfOpen (h : b.state = .halfOpen) :
    b.slack T t = 1 + (T - t) / b.cfg.cooldownMs := by
  simp only [slack, h]

theorem slack_open (h : b.state = .open) : b.slack T t =
    (T + b.cfg.cooldownMs - max (b.openedAt + b.cfg.cooldownMs) t) / b.cfg.cooldownMs := by
  simp only [slack, h]

/-- One trial and the rest of the time, as the slack of an open breaker counts them. -/
theorem div_add_one (hc : 0 < b.cfg.cooldownMs) (hle : now ≤ T) :
    (T + b.cfg.cooldownMs - now) / b.cfg.cooldownMs = 1 + (T - now) / b.cfg.cooldownMs := by
  have hsum : T + b.cfg.cooldownMs - now = (T - now) + b.cfg.cooldownMs := by omega
  rw [hsum, Nat.add_div_right _ hc, Nat.add_comm]

/-- The slack does not grow with time. -/
theorem slack_anti (h : t ≤ now) : b.slack T now ≤ b.slack T t := by
  have hrest : (T - now) / b.cfg.cooldownMs ≤ (T - t) / b.cfg.cooldownMs :=
    Nat.div_le_div_right (by omega)
  cases hs : b.state with
  | closed =>
    rw [slack_closed hs, slack_closed hs]
    exact Nat.add_le_add_left hrest _
  | halfOpen =>
    rw [slack_halfOpen hs, slack_halfOpen hs]
    exact Nat.add_le_add_left hrest _
  | «open» =>
    rw [slack_open hs, slack_open hs]
    exact Nat.div_le_div_right (by omega)

/-- The slack of any breaker: its threshold, and one failure for each cooldown. -/
theorem slack_le (hc : 0 < b.cfg.cooldownMs) (hle : t ≤ T) :
    b.slack T t ≤ max 1 b.cfg.failureThreshold + (T - t) / b.cfg.cooldownMs := by
  cases hs : b.state with
  | closed =>
    rw [slack_closed hs]
    omega
  | halfOpen =>
    rw [slack_halfOpen hs]
    omega
  | «open» =>
    have hmono : (T + b.cfg.cooldownMs - max (b.openedAt + b.cfg.cooldownMs) t) /
        b.cfg.cooldownMs ≤ (T + b.cfg.cooldownMs - t) / b.cfg.cooldownMs :=
      Nat.div_le_div_right (by omega)
    rw [div_add_one hc hle] at hmono
    rw [slack_open hs]
    omega

/-- A poll does not raise the slack.  It promotes a breaker only when the cooldown, which
the slack of an open breaker waits for, is over. -/
theorem slack_poll (hc : 0 < b.cfg.cooldownMs) (ht : t ≤ now) (hle : now ≤ T) :
    (b.poll now).slack T now ≤ b.slack T t := by
  rcases b.poll_cases now with ⟨ho, hcool, heq⟩ | ⟨heq, _⟩
  · have hpolled : (b.poll now).slack T now = 1 + (T - now) / b.cfg.cooldownMs := by
      rw [heq]
      exact slack_halfOpen rfl
    have hmono : (T + b.cfg.cooldownMs - now) / b.cfg.cooldownMs ≤
        (T + b.cfg.cooldownMs - max (b.openedAt + b.cfg.cooldownMs) t) / b.cfg.cooldownMs :=
      Nat.div_le_div_right (by omega)
    rw [div_add_one hc hle] at hmono
    rw [hpolled, slack_open ho]
    exact hmono
  · rw [heq]
    exact slack_anti ht

/-- A trip leaves one failure for each cooldown to come. -/
theorem slack_trip (b : CircuitBreaker) (T now : Nat) :
    (b.trip now).slack T now = (T - now) / b.cfg.cooldownMs := by
  have hopen : (b.trip now).slack T now =
      (T + b.cfg.cooldownMs - max (now + b.cfg.cooldownMs) now) / b.cfg.cooldownMs :=
    slack_open rfl
  have hsum : T + b.cfg.cooldownMs - max (now + b.cfg.cooldownMs) now = T - now := by omega
  rw [hopen, hsum]

/-- What a failure leaves of the slack.  One that finds the breaker not open takes one
away. -/
theorem slack_onFailure (hb : CountersBounded (b.poll now)) :
    (if (b.poll now).state = .open then 0 else 1) + (b.onFailure now).slack T now ≤
      (b.poll now).slack T now := by
  rcases b.onFailure_cases now with ⟨hne, heq⟩ | ⟨hs, hlt, heq⟩ | ⟨hs, heq⟩
  · rw [if_neg hne, heq, slack_trip]
    cases hs : (b.poll now).state with
    | closed =>
      rw [slack_closed hs]
      omega
    | halfOpen => rw [slack_halfOpen hs]
    | «open» => exact absurd hs hne
  · have hnext := incr32_eq (hb.failures_lt hs)
    have hfail : (b.onFailure now).slack T now =
        max 1 ((b.poll now).cfg.failureThreshold - ((b.poll now).consecutiveFailures + 1)) +
          (T - now) / (b.poll now).cfg.cooldownMs := by
      rw [heq, ← hnext]
      exact slack_closed hs
    rw [hnext] at hlt
    rw [if_neg (by rw [hs]; decide), hfail, slack_closed hs, poll_cfg]
    omega
  · rw [if_pos hs, heq, Nat.zero_add]

/-- A success may give a breaker its failures back, all but one. -/
theorem slack_onSuccess (b : CircuitBreaker) (T now : Nat) : (b.onSuccess now).slack T now ≤
    (b.poll now).slack T now + (max 1 b.cfg.failureThreshold - 1) := by
  rcases b.onSuccess_cases now with ⟨hs, heq⟩ | ⟨hs, _, heq⟩ | ⟨hs, _, heq⟩ | ⟨_, heq⟩
  · have hfull : (b.onSuccess now).slack T now =
        max 1 ((b.poll now).cfg.failureThreshold - 0) +
          (T - now) / (b.poll now).cfg.cooldownMs := by
      rw [heq]
      exact slack_closed hs
    rw [hfull, slack_closed hs, poll_cfg]
    omega
  · have hfull : (b.onSuccess now).slack T now =
        max 1 ((b.poll now).cfg.failureThreshold - 0) +
          (T - now) / (b.poll now).cfg.cooldownMs := by
      rw [heq]
      exact slack_closed rfl
    rw [hfull, slack_halfOpen hs, poll_cfg]
    omega
  · have hsame : (b.onSuccess now).slack T now =
        1 + (T - now) / (b.poll now).cfg.cooldownMs := by
      rw [heq]
      exact slack_halfOpen hs
    rw [hsame, slack_halfOpen hs]
    omega
  · rw [heq]
    omega

end Slack

/-- The run counters of a breaker stay in range. -/
theorem countersBounded_apply {b : CircuitBreaker} (h : CountersBounded b)
    (e : BreakerEvent) : CountersBounded (b.apply e) := by
  -- the reference breaker in the state of `b`
  obtain ⟨st, hst⟩ : ∃ st, Matches b st := by
    cases hs : b.state with
    | closed => exact ⟨.closed b.consecutiveFailures, hs, rfl⟩
    | «open» => exact ⟨.open b.openedAt, hs, rfl⟩
    | halfOpen => exact ⟨.half b.consecutiveSuccesses, hs, rfl⟩
  have hagrees : Agrees b
      { state := st
        failThresh := b.cfg.failureThreshold
        succThresh := b.cfg.successThreshold
        cooldown := b.cfg.cooldownMs } := ⟨rfl, rfl, rfl, hst, h⟩
  exact (agrees_apply hagrees e).bounded

end CircuitBreaker

namespace Pool

/-! ## Runs of pool calls -/

theorem countersBounded_of_reachable {p : Pool} (h : p.Reachable) (i : Nat) :
    CountersBounded (p.backend i).breaker := by
  have hnew : ∀ cfg, CountersBounded (.new cfg) := fun cfg => (agrees_new cfg).bounded
  refine System.Reachable.invariant (M := poolSystem)
    (I := fun p => CountersBounded (p.backend i).breaker) ?_ ?_ h
  · intro p₀ h₀
    obtain ⟨name, strategy, health, rfl⟩ := h₀
    exact hnew _
  · intro q op hq hok
    show CountersBounded ((q.apply op).backend i).breaker
    rcases backend_apply_cases hok i with ⟨_, heq⟩ | ⟨_, health, cfg, heq⟩
    · rw [heq]
      rcases q.effect_breaker_cases op i (q.backend i) with hb | ⟨e, _, hb⟩
      · rw [hb]
        exact hq
      · rw [hb]
        exact CircuitBreaker.countersBounded_apply hq e
    · rw [heq]
      exact hnew cfg

theorem breaker_cfg_apply {p : Pool} {i : Nat} (hi : i < p.backends.length) (op : Op) :
    ((p.apply op).backend i).breaker.cfg = (p.backend i).breaker.cfg := by
  rw [backend_apply_of_lt hi]
  rcases p.effect_breaker_cases op i (p.backend i) with heq | ⟨e, _, heq⟩
  · rw [heq]
  · rw [heq, CircuitBreaker.apply_cfg]

/-- No call changes the configuration of a breaker. -/
theorem breaker_cfg_exec {p : Pool} {i : Nat} (hi : i < p.backends.length) (ops : List Op) :
    ((poolSystem.exec p ops).backend i).breaker.cfg = (p.backend i).breaker.cfg := by
  induction ops generalizing p with
  | nil => rfl
  | cons op ops ih =>
    have hi' := Nat.lt_of_lt_of_le hi (p.length_le_apply op)
    exact (ih hi').trans (breaker_cfg_apply hi op)

/-- One for a failure of backend `i` that its breaker counts. -/
def strikes (i : Nat) (p : Pool) : Op → Nat
  | .recordFailure idx now =>
    if idx = i then if ((p.backend i).breaker.poll now).state = .open then 0 else 1
    else 0
  | _ => 0

/-- One for a success of backend `i`. -/
def credits (i : Nat) : Op → Nat
  | .recordSuccess idx _ | .recordSuccessLatency idx _ _ => if idx = i then 1 else 0
  | _ => 0

/-- A pool call pays a strike out of the slack of the breaker. -/
theorem slack_apply {p : Pool} {i : Nat} (hi : i < p.backends.length)
    (hb : CountersBounded (p.backend i).breaker)
    (hc : 0 < (p.backend i).breaker.cfg.cooldownMs) (op : Op) {T t : Nat}
    (ht : ∀ u, op.time = some u → t ≤ u ∧ u ≤ T) :
    p.strikes i op + ((p.apply op).backend i).breaker.slack T (op.time.getD t) ≤
      (p.backend i).breaker.slack T t +
        (max 1 (p.backend i).breaker.cfg.failureThreshold - 1) * credits i op := by
  rw [backend_apply_of_lt hi]
  have hpolled : ∀ now, CountersBounded ((p.backend i).breaker.poll now) := fun now =>
    CircuitBreaker.countersBounded_apply hb (.poll now)
  have hstep := p.effectStep op i (p.backend i)
  generalize p.effect op i (p.backend i) = b' at hstep ⊢
  cases hstep with
  | polled now =>
    have hle := ht now rfl
    have hpoll := CircuitBreaker.slack_poll (b := (p.backend i).breaker) hc hle.1 hle.2
    simpa [strikes, credits, Op.time, Backend.poll_breaker] using hpoll
  | succeeded now =>
    have hle := ht now rfl
    have hpoll := CircuitBreaker.slack_poll (b := (p.backend i).breaker) hc hle.1 hle.2
    have hsucc := (p.backend i).breaker.slack_onSuccess T now
    simp only [strikes, credits, Op.time, Option.getD_some, if_true, Nat.mul_one]
    omega
  | measured now latencyMs =>
    have hle := ht now rfl
    have hpoll := CircuitBreaker.slack_poll (b := (p.backend i).breaker) hc hle.1 hle.2
    have hsucc := (p.backend i).breaker.slack_onSuccess T now
    simp only [strikes, credits, Op.time, Option.getD_some, if_true, Nat.mul_one]
    omega
  | failed now =>
    have hle := ht now rfl
    have hpoll := CircuitBreaker.slack_poll (b := (p.backend i).breaker) hc hle.1 hle.2
    have hfail := CircuitBreaker.slack_onFailure (T := T) (hpolled now)
    simp only [strikes, credits, Op.time, Option.getD_some, if_true, Nat.mul_zero]
    omega
  | weighed now key exclude w =>
    simpa [strikes, credits, Op.time] using
      CircuitBreaker.slack_anti (b := (p.backend i).breaker) (ht now rfl).1
  | probed now probe =>
    simpa [strikes, credits, Op.time] using
      CircuitBreaker.slack_anti (b := (p.backend i).breaker) (ht now rfl).1
  | begun => simp [strikes, credits, Op.time]
  | ended => simp [strikes, credits, Op.time]
  | other hpoll hne =>
    -- a call that names another backend
    have hstrikes : p.strikes i op = 0 := by
      unfold strikes
      split
      · rw [if_neg (fun he => hne (by rw [← he]; rfl))]
      · rfl
    have hle : t ≤ op.time.getD t := by
      cases htime : op.time with
      | none => exact Nat.le_refl t
      | some u => exact (ht u htime).1
    have hanti := CircuitBreaker.slack_anti (b := (p.backend i).breaker) (T := T) hle
    rw [hstrikes]
    omega

/-- Within `[t, T]` the breaker of a backend counts at most its threshold of failures,
and one more for each cooldown, and up to its threshold less one more for each
success. -/
theorem strikes_le {p : Pool} (h : p.Reachable) {i : Nat} (hi : i < p.backends.length)
    (hc : 0 < (p.backend i).breaker.cfg.cooldownMs) {ops : List Op}
    (hv : poolSystem.Valid p ops) (hn : Nondecreasing Op.time ops) {t T : Nat} (hle : t ≤ T)
    (ht : ∀ op ∈ ops, ∀ u, op.time = some u → t ≤ u ∧ u ≤ T) :
    poolSystem.total (strikes i) p ops ≤
      max 1 (p.backend i).breaker.cfg.failureThreshold +
        (T - t) / (p.backend i).breaker.cfg.cooldownMs +
        (max 1 (p.backend i).breaker.cfg.failureThreshold - 1) *
          poolSystem.total (fun _ => credits i) p ops := by
  obtain ⟨cfg, hcfg⟩ : ∃ cfg, (p.backend i).breaker.cfg = cfg := ⟨_, rfl⟩
  have hbound := System.Valid.total_le_of_potential (M := poolSystem) Op.time (T := T)
    (I := fun q => i < q.backends.length ∧ q.Reachable ∧ (q.backend i).breaker.cfg = cfg)
    (Φ := fun t q => (q.backend i).breaker.slack T t) (w := strikes i)
    (c := fun _ op => (max 1 cfg.failureThreshold - 1) * credits i op)
    (fun q op hq hok => by
      obtain ⟨hlt, hreach, hqcfg⟩ := hq
      exact ⟨Nat.lt_of_lt_of_le hlt (q.length_le_apply op),
        System.Reachable.step (M := poolSystem) hreach hok,
        (breaker_cfg_apply hlt op).trans hqcfg⟩)
    (fun q op u hq _ hu => by
      obtain ⟨hlt, hreach, hqcfg⟩ := hq
      have hpay := slack_apply hlt (countersBounded_of_reachable hreach i)
        (by rw [hqcfg, ← hcfg]; exact hc) op hu
      rwa [hqcfg] at hpay)
    ⟨hi, h, hcfg⟩ hv hn ht
  rw [System.total_mul] at hbound
  have hslack := CircuitBreaker.slack_le (b := (p.backend i).breaker) hc hle
  rw [hcfg] at hslack ⊢
  omega

end Pool

end Echofront
