import Echofront.HashRing.Remap
import Echofront.Lib.Mixer
import Mathlib.Data.UInt

/-!
# Distinct points

The finalizer mixes 64 bits with three shifts and two multiplications by odd constants.
No step loses a bit, so different words have different images.

* `mix64_injective` reads the finalizer as rounds of a mixer.
* `point_eq_iff` says when two virtual nodes are at one point: when their sums before the
  last finalizer agree.
* `length_rebuild_singleton` counts the points of a ring with one member.

`positions_distinct` puts these together.
-/

namespace Echofront

open Lib

/-! ## The finalizer -/

/-- The finalizer as two rounds and a shift. -/
theorem toBitVec_mix64 (z : UInt64) :
    (mix64 z).toBitVec =
      xorShift 31 (mixRound 27 0x94d049bb133111eb (mixRound 30 0xbf58476d1ce4e5b9 z.toBitVec)) :=
  rfl

theorem mix64_injective : Function.Injective mix64 := by
  -- the inverses of the two constants
  have hfirst : IsUnit (0xbf58476d1ce4e5b9 : BitVec 64) :=
    IsUnit.of_mul_eq_one 0x96de1b173f119089 (by decide)
  have hsecond : IsUnit (0x94d049bb133111eb : BitVec 64) :=
    IsUnit.of_mul_eq_one 0x319642b2d24d8ec3 (by decide)
  intro x y h
  have hbits := congrArg UInt64.toBitVec h
  rw [toBitVec_mix64, toBitVec_mix64] at hbits
  have hrounds := mixRound_injective (by decide) hsecond (xorShift_injective (by decide) hbits)
  exact UInt64.eq_of_toBitVec_eq (mixRound_injective (by decide) hfirst hrounds)

namespace ConsistentHashRing

/-! ## The points of one member -/

/-- Two virtual nodes are at one point when their sums before the last finalizer agree. -/
theorem point_eq_iff {a b : UInt64} {i j : Nat} :
    point a i = point b j ↔
      mix64 (UInt64.ofNat i) - mix64 (UInt64.ofNat j) = b - a := by
  have hsum : point a i = point b j ↔
      a + mix64 (UInt64.ofNat i) = b + mix64 (UInt64.ofNat j) := by
    unfold point
    rw [UInt64.toNat_inj, mix64_injective.eq_iff]
  rw [hsum]
  constructor
  · intro h
    grind
  · intro h
    grind

/-- The virtual nodes of a member are at different points. -/
theorem point_injective {a : UInt64} {i j : Nat} (hi : i < 2 ^ 64) (hj : j < 2 ^ 64)
    (h : point a i = point a j) : i = j := by
  have hmix : mix64 (UInt64.ofNat i) = mix64 (UInt64.ofNat j) := by
    have hdiff := point_eq_iff.mp h
    grind
  have hnat := congrArg UInt64.toNat (mix64_injective hmix)
  rwa [UInt64.toNat_ofNat_of_lt' hi, UInt64.toNat_ofNat_of_lt' hj] at hnat

/-- A ring with one member has one point for each of its virtual nodes. -/
theorem length_rebuild_singleton {r : ConsistentHashRing} (hv : r.vnodes ≤ 2 ^ 64)
    (m : Nat × String) : (r.rebuild [m]).ring.entries.length = r.vnodes := by
  obtain ⟨base, hbase⟩ : ∃ base, base = fnv1a64 (asBytes m.2) := ⟨_, rfl⟩
  have hnodup : ((List.range r.vnodes).map (point base)).Nodup := by
    refine List.Nodup.map_on (fun i hi j hj h => ?_) List.nodup_range
    exact point_injective (Nat.lt_of_lt_of_le (List.mem_range.mp hi) hv)
      (Nat.lt_of_lt_of_le (List.mem_range.mp hj) hv) h
  have hmem : ∀ p, p ∈ (r.rebuild [m]).ring.entries.map Prod.fst ↔
      p ∈ (List.range r.vnodes).map (point base) := by
    intro p
    have hkeys : p ∈ (r.rebuild [m]).ring.keys ↔ p ∈ points r.vnodes [m] := by
      rw [keys_rebuild]
    simpa [OrderedMap.keys, points, Places, hbase] using hkeys
  have hperm := (List.perm_ext_iff_of_nodup (OrderedMap.nodup_keys _) hnodup).mpr hmem
  simpa using hperm.length_eq

/-- No member loses a point to itself.

* The finalizer is injective.
* The virtual nodes of a member are at different points, so a ring rebuilt from one
  member has as many points as virtual nodes.
* Two members share a point exactly when two of their virtual nodes make up for the
  difference of the hashes of their names.

The number of virtual nodes is a `u32`. -/
theorem positions_distinct {r : ConsistentHashRing} (hv : r.vnodes ≤ 2 ^ 64) :
    Function.Injective mix64 ∧
    (∀ name : String, ∀ i < r.vnodes, ∀ j < r.vnodes,
      point (fnv1a64 (asBytes name)) i = point (fnv1a64 (asBytes name)) j → i = j) ∧
    (∀ m : Nat × String, (r.rebuild [m]).ring.entries.length = r.vnodes) ∧
    ∀ a b : Nat × String,
      (∃ p, Places r.vnodes a p ∧ Places r.vnodes b p) ↔
        ∃ i < r.vnodes, ∃ j < r.vnodes,
          mix64 (UInt64.ofNat i) - mix64 (UInt64.ofNat j) =
            fnv1a64 (asBytes b.2) - fnv1a64 (asBytes a.2) := by
  refine ⟨mix64_injective, fun name i hi j hj h => ?_, length_rebuild_singleton hv,
    fun a b => ?_⟩
  · exact point_injective (Nat.lt_of_lt_of_le hi hv) (Nat.lt_of_lt_of_le hj hv) h
  · constructor
    · intro h
      obtain ⟨p, ⟨i, hi, ha⟩, ⟨j, hj, hb⟩⟩ := h
      exact ⟨i, hi, j, hj, point_eq_iff.mp (ha.trans hb.symm)⟩
    · intro h
      obtain ⟨i, hi, j, hj, hdiff⟩ := h
      exact ⟨_, ⟨i, hi, rfl⟩, ⟨j, hj, (point_eq_iff.mpr hdiff).symm⟩⟩

/-- The ring of a pool with one backend. -/
theorem positions_distinct_pool :
    ((ConsistentHashRing.new 160).rebuild [(0, "a")]).ring.entries.length = 160 :=
  (positions_distinct (r := .new 160) (by decide)).2.2.1 (0, "a")

end ConsistentHashRing

end Echofront
