import Mathlib.Order.Lattice
import Mathlib.Tactic.Common

/-!
# Interval timers

A timer with an interval fires when it has never fired, or when the interval has passed
since it fired last.  `room` is how often it can fire until a time `T`, and so a potential:
time does not raise it, and every firing pays one out of it.  However often the timer is
asked within `[t, T]`, it fires at most once, and once more for each interval.
-/

namespace Echofront.Lib

/-- Whether a timer that fired last at `last` fires at `now`.  Times that go back count as
no time at all. -/
def due (interval : Nat) (last : Option Nat) (now : Nat) : Bool :=
  match last with
  | none => true
  | some l => decide (interval ≤ now - l)

/-- How often the timer can fire from `t` to `T`. -/
def room (interval T : Nat) (last : Option Nat) (t : Nat) : Nat :=
  match last with
  | none => 1 + (T - t) / interval
  | some l => (T + interval - max (l + interval) t) / interval

variable {interval T t now : Nat} {last : Option Nat}

/-- Time does not raise the room. -/
theorem room_anti (h : t ≤ now) : room interval T last now ≤ room interval T last t := by
  cases last with
  | none => exact Nat.add_le_add_left (Nat.div_le_div_right (by omega)) 1
  | some l => exact Nat.div_le_div_right (by omega)

/-- A firing leaves one for each interval to come. -/
theorem room_fired (interval T now : Nat) :
    room interval T (some now) now = (T - now) / interval := by
  have hsum : T + interval - max (now + interval) now = T - now := by omega
  rw [room, hsum]

/-- A firing pays one out of the room. -/
theorem room_fire (hpos : 0 < interval) (hdue : due interval last now = true) (hle : now ≤ T) :
    1 + room interval T (some now) now ≤ room interval T last now := by
  rw [room_fired]
  cases last with
  | none => exact Nat.le_refl _
  | some l =>
    have hpassed : interval ≤ now - l := of_decide_eq_true hdue
    have hsum : T + interval - max (l + interval) now = (T - now) + interval := by omega
    rw [room, hsum, Nat.add_div_right _ hpos, Nat.add_comm]

/-- The room of any timer. -/
theorem room_le (hpos : 0 < interval) (hle : t ≤ T) :
    room interval T last t ≤ 1 + (T - t) / interval := by
  cases last with
  | none => exact Nat.le_refl _
  | some l =>
    calc room interval T (some l) t
        ≤ ((T - t) + interval) / interval := Nat.div_le_div_right (by omega)
      _ = 1 + (T - t) / interval := by rw [Nat.add_div_right _ hpos, Nat.add_comm]

end Echofront.Lib
