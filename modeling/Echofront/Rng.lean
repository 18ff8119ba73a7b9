import Echofront.HashRing.Distinct
import Echofront.Lib.FullPeriod

/-!
# The random number generator

`Rng` of `src/rng.rs`, the seeded SplitMix64 that the property and fuzz gates draw from.
The two functions on floats are left out.

The state counts up by an odd increment, so it meets every word once in `2 ^ 64` draws, and
the finalizer loses no bit (`mix64_injective`).  So the stream of any seed has full period
(`fullPeriod_draw`), and `below` is as even as a remainder can be (`stream_even`).
-/

namespace Echofront

open Lib

/-- `Rng`. -/
structure Rng where
  state : UInt64
deriving DecidableEq, Repr

namespace Rng

def new (seed : UInt64) : Rng where
  state := seed

def nextU64 (r : Rng) : UInt64 × Rng :=
  let r : Rng := { r with state := r.state + 0x9e3779b97f4a7c15 }
  let z : UInt64 := r.state
  let z := (z ^^^ (z >>> 30)) * 0xbf58476d1ce4e5b9
  let z := (z ^^^ (z >>> 27)) * 0x94d049bb133111eb
  (z ^^^ (z >>> 31), r)

/-- `bound` is not zero: the source would panic. -/
def below (r : Rng) (bound : UInt64) : UInt64 × Rng :=
  let (x, r) := r.nextU64
  (x % bound, r)

/-- The generator after `k` draws. -/
def after (r : Rng) : Nat → Rng
  | 0 => r
  | k + 1 => (r.after k).nextU64.2

/-- The draw after `k` others. -/
def draw (r : Rng) (k : Nat) : UInt64 := (r.after k).nextU64.1

variable {r : Rng}

/-- A draw finalizes the next state. -/
theorem nextU64_eq (r : Rng) : r.nextU64 =
    (mix64 (r.state + 0x9e3779b97f4a7c15), ⟨r.state + 0x9e3779b97f4a7c15⟩) := rfl

theorem state_after (r : Rng) (k : Nat) :
    (r.after k).state = r.state + UInt64.ofNat k * 0x9e3779b97f4a7c15 := by
  induction k with
  | zero => simp [after]
  | succ k ih =>
    rw [after, nextU64_eq, ih, UInt64.ofNat_add]
    grind

/-- The increment is odd, so it has an inverse. -/
theorem mul_increment_cancel {x y : UInt64}
    (h : x * 0x9e3779b97f4a7c15 = y * 0x9e3779b97f4a7c15) : x = y := by
  have hinv : (0x9e3779b97f4a7c15 : UInt64) * 0xf1de83e19937733d = 1 := by decide
  calc x = x * 0x9e3779b97f4a7c15 * 0xf1de83e19937733d := by
        rw [UInt64.mul_assoc, hinv, UInt64.mul_one]
    _ = y * 0x9e3779b97f4a7c15 * 0xf1de83e19937733d := by rw [h]
    _ = y := by rw [UInt64.mul_assoc, hinv, UInt64.mul_one]

theorem draw_eq_iff {j k : Nat} : r.draw j = r.draw k ↔ UInt64.ofNat j = UInt64.ofNat k := by
  have hdraw : ∀ k, r.draw k =
      mix64 (r.state + UInt64.ofNat k * 0x9e3779b97f4a7c15 + 0x9e3779b97f4a7c15) := fun k => by
    rw [draw, nextU64_eq, state_after]
  rw [hdraw, hdraw, mix64_injective.eq_iff]
  refine ⟨fun h => mul_increment_cancel ?_, fun h => by rw [h]⟩
  grind

/-- The stream of any seed runs through all words. -/
theorem fullPeriod_draw (r : Rng) : FullPeriod (2 ^ 64) (fun k => (r.draw k).toNat) where
  lt := fun k => (r.draw k).toNat_lt
  injOn := by
    intro j hj k hk h
    have hwords := draw_eq_iff.mp (UInt64.toNat_inj.mp h)
    have hnat := congrArg UInt64.toNat hwords
    rwa [UInt64.toNat_ofNat_of_lt' (Finset.mem_range.mp hj),
      UInt64.toNat_ofNat_of_lt' (Finset.mem_range.mp hk)] at hnat
  periodic := by
    intro k
    have hsame : UInt64.ofNat (k + 2 ^ 64) = UInt64.ofNat k := by
      rw [UInt64.ofNat_add]
      grind
    exact congrArg UInt64.toNat (draw_eq_iff.mpr hsame)

/-- The stream is even.  Over `2 ^ 64` draws from any seed each word comes exactly once, and
then the stream begins again; and so many draws below `bound` give each number under it
`2 ^ 64 / bound` times, and the first `2 ^ 64 % bound` numbers once more. -/
theorem stream_even (r : Rng) {bound : UInt64} {v : Nat} (hv : v < bound.toNat) :
    (∀ z, ∃! k, k < 2 ^ 64 ∧ r.draw k = z) ∧ (∀ k, r.draw (k + 2 ^ 64) = r.draw k) ∧
      Nat.count (fun k => ((r.after k).below bound).1.toNat = v) (2 ^ 64) =
        2 ^ 64 / bound.toNat + if v < 2 ^ 64 % bound.toNat then 1 else 0 := by
  have hfull := fullPeriod_draw r
  refine ⟨fun z => ?_, fun k => UInt64.toNat_inj.mp (hfull.periodic k), ?_⟩
  · simpa only [UInt64.toNat_inj] using hfull.existsUnique z.toNat_lt
  · have hbelow : ∀ k, ((r.after k).below bound).1.toNat = (r.draw k).toNat % bound.toNat :=
      fun k => UInt64.toNat_mod _ _
    simp only [hbelow]
    exact hfull.count_mod hv

/-- Of all draws below 7, one in seven is 3, rounded down: `2 ^ 64` leaves the remainder 2. -/
theorem stream_even_seven :
    Nat.count (fun k => (((new 1).after k).below 7).1.toNat = 3) (2 ^ 64) =
      2 ^ 64 / 7 + if 3 < 2 ^ 64 % 7 then 1 else 0 := by
  have hv : 3 < (7 : UInt64).toNat := by decide
  exact (stream_even (new 1) hv).2.2

end Rng

end Echofront
