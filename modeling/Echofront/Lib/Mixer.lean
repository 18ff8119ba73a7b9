import Mathlib.Algebra.Group.Units.Basic
import Mathlib.Data.BitVec
import Mathlib.Tactic.Common

/-!
# Bit mixers

A bit mixer spreads the bits of a word by rounds.  A round adds the word to itself,
shifted to the right, without carries, and multiplies the sum by a constant.

* `xorShift` is linear over the sum without carries, and only zero is its own shift, so
  it is injective (`xorShift_injective`).
* A multiplication by a unit of the ring of words is injective, so a round is
  (`mixRound_injective`).
-/

namespace Echofront.Lib

variable {w : Nat}

/-- A word and its shift to the right by `k`, added without carries. -/
def xorShift (k : Nat) (z : BitVec w) : BitVec w := z ^^^ (z >>> k)

theorem xorShift_xor (k : Nat) (x y : BitVec w) :
    xorShift k (x ^^^ y) = xorShift k x ^^^ xorShift k y := by
  unfold xorShift
  rw [BitVec.ushiftRight_xor_distrib]
  ac_rfl

/-- A word that is not zero gets smaller when it is shifted. -/
theorem eq_zero_of_xorShift {k : Nat} (hk : 0 < k) {z : BitVec w} (h : xorShift k z = 0#w) :
    z = 0#w := by
  have hsame : z = z >>> k := by
    rw [xorShift, BitVec.xor_eq_zero_iff] at h
    exact h
  have hnat : z.toNat = z.toNat / 2 ^ k := by
    have htoNat := congrArg BitVec.toNat hsame
    rwa [BitVec.toNat_ushiftRight, Nat.shiftRight_eq_div_pow] at htoNat
  have hzero : z.toNat = 0 := by
    by_contra hpos
    have hlt : z.toNat / 2 ^ k < z.toNat :=
      Nat.div_lt_self (Nat.pos_of_ne_zero hpos) (Nat.one_lt_two_pow hk.ne')
    exact absurd hnat hlt.ne'
  exact BitVec.eq_of_toNat_eq (by simpa using hzero)

theorem xorShift_injective {k : Nat} (hk : 0 < k) :
    Function.Injective (xorShift k : BitVec w → BitVec w) := by
  intro x y h
  have hzero : xorShift k (x ^^^ y) = 0#w := by
    rw [xorShift_xor, h, BitVec.xor_self]
  exact BitVec.xor_eq_zero_iff.mp (eq_zero_of_xorShift hk hzero)

/-- One round of a mixer. -/
def mixRound (k : Nat) (c z : BitVec w) : BitVec w := xorShift k z * c

theorem mixRound_injective {k : Nat} (hk : 0 < k) {c : BitVec w} (hc : IsUnit c) :
    Function.Injective (mixRound k c) :=
  hc.mul_left_injective.comp (xorShift_injective hk)

end Echofront.Lib
