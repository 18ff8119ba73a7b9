import Echofront.Machine
import Echofront.Lib.OrderedMap
import Echofront.Text
import Mathlib.Order.Nat

/-!
# The consistent hash ring

`src/hashring.rs`: the FNV-1a hash of a name, the SplitMix64 finalizer and the
ring.  The hashes compute in `UInt64`, which wraps as `wrapping_mul` and
`wrapping_add` do.  The `BTreeMap` from points to members is an `OrderedMap`
over the numeric values of the points.
-/

namespace Echofront

open Lib

/-- FNV-1a, 64 bit. -/
def fnv1a64 (bytes : List UInt8) : UInt64 :=
  bytes.foldl (fun h b => (h ^^^ b.toUInt64) * 0x00000100000001b3)
    0xcbf29ce484222325

/-- The SplitMix64 finalizer. -/
def mix64 (z : UInt64) : UInt64 :=
  let z := (z ^^^ (z >>> 30)) * 0xbf58476d1ce4e5b9
  let z := (z ^^^ (z >>> 27)) * 0x94d049bb133111eb
  z ^^^ (z >>> 31)

/-- `ConsistentHashRing`. -/
structure ConsistentHashRing where
  vnodes : Nat
  ring : OrderedMap Nat Nat
  members : List Nat
deriving DecidableEq

namespace ConsistentHashRing

def new (vnodes : Nat) : ConsistentHashRing where
  vnodes := max vnodes 1
  ring := .empty
  members := []

/-- The point of virtual node `v` of the member whose name hashes to `base`. -/
def point (base : UInt64) (v : Nat) : Nat :=
  (mix64 (base + mix64 (UInt64.ofNat v))).toNat

/-- The inner loop of `rebuild`: the virtual nodes of one member. -/
def place (vnodes : Nat) (ring : OrderedMap Nat Nat) (m : Nat × String) :
    OrderedMap Nat Nat :=
  (List.range vnodes).foldl
    (fun ring v => ring.insert (point (fnv1a64 (asBytes m.2)) v) m.1) ring

def rebuild (r : ConsistentHashRing) (members : List (Nat × String)) :
    ConsistentHashRing where
  vnodes := r.vnodes
  ring := members.foldl (place r.vnodes) .empty
  members := members.map Prod.fst

def isEmpty (r : ConsistentHashRing) : Bool := r.ring.isEmpty

def lookup (r : ConsistentHashRing) (key : String) : Option Nat :=
  if r.ring.isEmpty then none
  else
    let h := (mix64 (fnv1a64 (asBytes key))).toNat
    match r.ring.ceiling? h with
    | some e => some e.2
    | none => r.ring.first?.map Prod.snd

/-! ## What a lookup can return -/

theorem mem_place {vnodes : Nat} {ring : OrderedMap Nat Nat} {m : Nat × String}
    {e : Nat × Nat} (h : e ∈ (place vnodes ring m).entries) :
    e.2 = m.1 ∨ e ∈ ring.entries := by
  unfold place at h
  generalize List.range vnodes = vs at h
  induction vs generalizing ring with
  | nil => exact Or.inr h
  | cons v vs ih =>
    rcases ih h with hm | hin
    · exact Or.inl hm
    · exact (OrderedMap.mem_insert_imp hin).imp_left (fun he => by rw [he])

/-- Every point of a rebuilt ring belongs to one of the members. -/
theorem mem_rebuild {r : ConsistentHashRing} {members : List (Nat × String)}
    {e : Nat × Nat} (h : e ∈ (r.rebuild members).ring.entries) :
    e.2 ∈ members.map Prod.fst := by
  have aux : ∀ (ms : List (Nat × String)) (ring : OrderedMap Nat Nat),
      e ∈ (ms.foldl (place r.vnodes) ring).entries →
      e.2 ∈ ms.map Prod.fst ∨ e ∈ ring.entries := by
    intro ms
    induction ms with
    | nil => intro ring he; exact Or.inr he
    | cons m ms ih =>
      intro ring he
      rcases ih _ he with hm | hin
      · exact Or.inl (by simp only [List.map_cons, List.mem_cons]; exact Or.inr hm)
      · rcases mem_place hin with hm | hin
        · exact Or.inl (by simp [hm])
        · exact Or.inr hin
  rcases aux members .empty h with hm | hin
  · exact hm
  · simp [OrderedMap.empty] at hin

/-- Placing a member on a ring with at least one virtual node leaves a point. -/
theorem isEmpty_place {vnodes : Nat} (hv : 1 ≤ vnodes) (ring : OrderedMap Nat Nat)
    (m : Nat × String) : (place vnodes ring m).isEmpty = false := by
  obtain ⟨n, rfl⟩ : ∃ n, vnodes = n + 1 := ⟨vnodes - 1, by omega⟩
  unfold place
  rw [List.range_succ, List.foldl_append]
  exact OrderedMap.isEmpty_insert _ _ _

theorem isEmpty_rebuild {r : ConsistentHashRing} (hv : 1 ≤ r.vnodes)
    {members : List (Nat × String)} (hne : members ≠ []) :
    (r.rebuild members).isEmpty = false := by
  unfold isEmpty rebuild
  rw [← List.dropLast_concat_getLast hne, List.foldl_append]
  exact isEmpty_place hv _ _

/-- A lookup on a ring with a point returns the member of some point. -/
theorem lookup_mem {r : ConsistentHashRing} (h : r.isEmpty = false) (key : String) :
    ∃ e ∈ r.ring.entries, r.lookup key = some e.2 := by
  unfold isEmpty at h
  simp only [lookup, h, Bool.false_eq_true, if_false]
  cases hc : r.ring.ceiling? (mix64 (fnv1a64 (asBytes key))).toNat with
  | some e => exact ⟨e, OrderedMap.ceiling?_mem hc, rfl⟩
  | none =>
    obtain ⟨e, he⟩ := Option.isSome_iff_exists.mp (OrderedMap.first?_isSome h)
    exact ⟨e, OrderedMap.first?_mem he, by simp [he]⟩

end ConsistentHashRing

end Echofront
