import Echofront.HashRing
import Mathlib.Data.List.Induction

/-!
# Minimal remapping of the hash ring

A rebuilt ring is read as a set of points with owners.  `Places` says that a
member has a virtual node at a point, and `Owns` that it is the last of the list
that does, since a later insertion replaces an earlier one at the same point.

* `mem_rebuild_iff`: the entries of a rebuilt ring are the points with their
  owners.
* `lookup_rebuild_eq_some_iff` and `lookup_rebuild_eq_none_iff`: a lookup walks
  to the next point of the circle and answers its owner.
* `lookup_rebuild_remove` and `lookup_rebuild_filter`: a key of another member
  stays where it is when a member, or several, leave.  The points only get fewer,
  and the other members keep theirs.
-/

namespace Echofront

open Lib

namespace ConsistentHashRing

/-- Member `m` has a virtual node at point `p`. -/
def Places (vnodes : Nat) (m : Nat × String) (p : Nat) : Prop :=
  ∃ v < vnodes, point (fnv1a64 (asBytes m.2)) v = p

/-- The points of a member list. -/
def points (vnodes : Nat) (members : List (Nat × String)) : Set Nat :=
  {p | ∃ m ∈ members, Places vnodes m p}

/-- Member `i` owns point `p`: it is the identity of the last member of the list
with a virtual node there. -/
def Owns (vnodes : Nat) (members : List (Nat × String)) (p i : Nat) : Prop :=
  ∃ pre m post, members = pre ++ m :: post ∧ m.1 = i ∧ Places vnodes m p ∧
    ∀ l ∈ post, ¬ Places vnodes l p

/-- The position of a key on the circle. -/
def keyPoint (key : String) : Nat := (mix64 (fnv1a64 (asBytes key))).toNat

/-! ## Owners of points -/

theorem owns_cons {vnodes : Nat} {m : Nat × String} {ms : List (Nat × String)}
    {p i : Nat} :
    Owns vnodes (m :: ms) p i ↔
      Owns vnodes ms p i ∨ m.1 = i ∧ Places vnodes m p ∧ ∀ l ∈ ms, ¬ Places vnodes l p := by
  constructor
  · intro h
    obtain ⟨pre, l, post, heq, hi, hp, hpost⟩ := h
    cases pre with
    | nil =>
      obtain ⟨rfl, rfl⟩ : m = l ∧ ms = post := by simpa using heq
      exact Or.inr ⟨hi, hp, hpost⟩
    | cons a pre =>
      obtain ⟨rfl, rfl⟩ : m = a ∧ ms = pre ++ l :: post := by simpa using heq
      exact Or.inl ⟨pre, l, post, rfl, hi, hp, hpost⟩
  · intro h
    rcases h with ⟨pre, l, post, rfl, hi, hp, hpost⟩ | ⟨hi, hp, hms⟩
    · exact ⟨m :: pre, l, post, rfl, hi, hp, hpost⟩
    · exact ⟨[], m, ms, rfl, hi, hp, hms⟩

/-- The owner of a point in a list of two parts: the owner in the later part, and
the owner in the earlier part where the later one has no virtual node. -/
theorem owns_append {vnodes : Nat} {xs ys : List (Nat × String)} {p i : Nat} :
    Owns vnodes (xs ++ ys) p i ↔
      Owns vnodes ys p i ∨ Owns vnodes xs p i ∧ ∀ l ∈ ys, ¬ Places vnodes l p := by
  induction xs with
  | nil =>
    have hnil : ¬ Owns vnodes [] p i := by
      intro h
      obtain ⟨pre, m, post, heq, _⟩ := h
      simp at heq
    simp [hnil]
  | cons m xs ih =>
    rw [List.cons_append, owns_cons, owns_cons, ih]
    constructor
    · intro h
      rcases h with (h | h) | ⟨hi, hp, hl⟩
      · exact Or.inl h
      · exact Or.inr ⟨Or.inl h.1, h.2⟩
      · refine Or.inr ⟨Or.inr ⟨hi, hp, fun l hlx => hl l ?_⟩, fun l hly => hl l ?_⟩
        · exact List.mem_append_left _ hlx
        · exact List.mem_append_right _ hly
    · intro h
      rcases h with h | ⟨h | ⟨hi, hp, hx⟩, hy⟩
      · exact Or.inl (Or.inl h)
      · exact Or.inl (Or.inr ⟨h, hy⟩)
      · refine Or.inr ⟨hi, hp, fun l hl => ?_⟩
        rcases List.mem_append.mp hl with hl | hl
        · exact hx l hl
        · exact hy l hl

theorem owns_singleton {vnodes : Nat} {m : Nat × String} {p i : Nat} :
    Owns vnodes [m] p i ↔ m.1 = i ∧ Places vnodes m p := by
  have hnil : ¬ Owns vnodes [] p i := by
    intro h
    obtain ⟨pre, m, post, heq, _⟩ := h
    simp at heq
  rw [owns_cons]
  simp [hnil]

theorem Owns.mem_points {vnodes : Nat} {members : List (Nat × String)} {p i : Nat}
    (h : Owns vnodes members p i) : p ∈ points vnodes members := by
  obtain ⟨pre, m, post, rfl, _, hp, _⟩ := h
  exact ⟨m, by simp, hp⟩

/-- Another member keeps its points when `m` leaves. -/
theorem Owns.remove {vnodes : Nat} {pre post : List (Nat × String)} {m : Nat × String}
    {p i : Nat} (h : Owns vnodes (pre ++ m :: post) p i) (hi : i ≠ m.1) :
    Owns vnodes (pre ++ post) p i := by
  rcases owns_append.mp h with h | ⟨h, hpost⟩
  · rcases owns_cons.mp h with h | ⟨hm, _, _⟩
    · exact owns_append.mpr (Or.inl h)
    · exact absurd hm.symm hi
  · exact owns_append.mpr
      (Or.inr ⟨h, fun l hl => hpost l (List.mem_cons_of_mem _ hl)⟩)

/-- The members that a filter keeps, keep their points. -/
theorem Owns.filter {vnodes : Nat} {members : List (Nat × String)} {p i : Nat}
    (h : Owns vnodes members p i) {keep : Nat × String → Bool}
    (hkeep : ∀ m ∈ members, m.1 = i → keep m = true) :
    Owns vnodes (members.filter keep) p i := by
  obtain ⟨pre, m, post, rfl, hi, hp, hpost⟩ := h
  have hm : keep m = true := hkeep m (by simp) hi
  refine ⟨pre.filter keep, m, post.filter keep, ?_, hi, hp, ?_⟩
  · rw [List.filter_append, List.filter_cons_of_pos hm]
  · exact fun l hl => hpost l (List.mem_filter.mp hl).1

theorem points_mono (vnodes : Nat) {ms members : List (Nat × String)}
    (hsub : ms ⊆ members) : points vnodes ms ⊆ points vnodes members := by
  intro p hp
  obtain ⟨m, hm, hp⟩ := hp
  exact ⟨m, hsub hm, hp⟩

/-! ## The entries of a rebuilt ring -/

theorem mem_place_iff {vnodes : Nat} {ring : OrderedMap Nat Nat} {m : Nat × String}
    {p i : Nat} :
    (p, i) ∈ (place vnodes ring m).entries ↔
      m.1 = i ∧ Places vnodes m p ∨ (p, i) ∈ ring.entries ∧ ¬ Places vnodes m p := by
  unfold place
  induction vnodes with
  | zero => simp [Places]
  | succ n ih =>
    have hsucc : Places (n + 1) m p ↔
        Places n m p ∨ point (fnv1a64 (asBytes m.2)) n = p := by
      constructor
      · intro h
        obtain ⟨v, hv, hp⟩ := h
        rcases Nat.lt_succ_iff_lt_or_eq.mp hv with hv | rfl
        · exact Or.inl ⟨v, hv, hp⟩
        · exact Or.inr hp
      · intro h
        rcases h with ⟨v, hv, hp⟩ | hp
        · exact ⟨v, Nat.lt_succ_of_lt hv, hp⟩
        · exact ⟨n, Nat.lt_succ_self n, hp⟩
    rw [List.range_succ, List.foldl_append, List.foldl_cons, List.foldl_nil,
      OrderedMap.mem_insert, ih, hsucc, Prod.mk.injEq]
    by_cases hp : point (fnv1a64 (asBytes m.2)) n = p
    · simp [hp, eq_comm]
    · simp [hp, Ne.symm hp]

/-- The entries of a rebuilt ring are the points with their owners. -/
theorem mem_rebuild_iff {r : ConsistentHashRing} {members : List (Nat × String)}
    {p i : Nat} :
    (p, i) ∈ (r.rebuild members).ring.entries ↔ Owns r.vnodes members p i := by
  show (p, i) ∈ (members.foldl (place r.vnodes) .empty).entries ↔ _
  induction members using List.reverseRecOn with
  | nil =>
    constructor
    · intro h
      simp [OrderedMap.empty] at h
    · intro h
      obtain ⟨pre, m, post, heq, _⟩ := h
      simp at heq
  | append_singleton ms m ih =>
    rw [List.foldl_append, List.foldl_cons, List.foldl_nil, mem_place_iff, ih,
      owns_append, owns_singleton]
    simp

theorem keys_rebuild (r : ConsistentHashRing) (members : List (Nat × String)) :
    (r.rebuild members).ring.keys = points r.vnodes members := by
  refine Set.eq_of_subset_of_subset (fun p h => ?_) (fun p h => ?_)
  · obtain ⟨e, he, rfl⟩ := h
    exact (mem_rebuild_iff.mp he).mem_points
  · -- a placed point has an owner: the last member of the list that places it
    have aux : ∀ ms : List (Nat × String), p ∈ points r.vnodes ms →
        ∃ i, Owns r.vnodes ms p i := by
      intro ms
      induction ms with
      | nil =>
        intro h
        obtain ⟨m, hm, _⟩ := h
        simp at hm
      | cons m ms ih =>
        intro h
        by_cases hms : p ∈ points r.vnodes ms
        · obtain ⟨i, hi⟩ := ih hms
          exact ⟨i, owns_cons.mpr (Or.inl hi)⟩
        · have hnone : ∀ l ∈ ms, ¬ Places r.vnodes l p := fun l hl hp => hms ⟨l, hl, hp⟩
          obtain ⟨l, hl, hp⟩ := h
          rcases List.mem_cons.mp hl with rfl | hl
          · exact ⟨l.1, owns_cons.mpr (Or.inr ⟨rfl, hp, hnone⟩)⟩
          · exact absurd hp (hnone l hl)
    obtain ⟨i, hi⟩ := aux members h
    exact ⟨(p, i), mem_rebuild_iff.mpr hi, rfl⟩

/-! ## Lookups -/

theorem lookup_eq_next (r : ConsistentHashRing) (key : String) :
    r.lookup key = (r.ring.next? (keyPoint key)).map Prod.snd := by
  unfold lookup OrderedMap.next? keyPoint
  cases hc : r.ring.ceiling? (mix64 (fnv1a64 (asBytes key))).toNat with
  | some e =>
    have hne : r.ring.isEmpty = false := by
      unfold OrderedMap.isEmpty
      cases hes : r.ring.entries with
      | nil => simpa [hes] using OrderedMap.ceiling?_mem hc
      | cons a es => rfl
    simp [hne, hc]
  | none =>
    cases hes : r.ring.entries with
    | nil => simp [OrderedMap.isEmpty, OrderedMap.first?, hes]
    | cons a es => simp [OrderedMap.isEmpty, OrderedMap.first?, hes, hc]

/-- A lookup answers the owner of the next point of the circle. -/
theorem lookup_rebuild_eq_some_iff {r : ConsistentHashRing}
    {members : List (Nat × String)} {key : String} {i : Nat} :
    (r.rebuild members).lookup key = some i ↔
      ∃ p, Owns r.vnodes members p i ∧
        IsNext (points r.vnodes members) (keyPoint key) p := by
  rw [lookup_eq_next, Option.map_eq_some_iff, ← keys_rebuild]
  constructor
  · intro h
    obtain ⟨e, he, rfl⟩ := h
    obtain ⟨hmem, hnext⟩ := OrderedMap.next?_isNext he
    exact ⟨e.1, mem_rebuild_iff.mp hmem, hnext⟩
  · intro h
    obtain ⟨p, howns, hnext⟩ := h
    exact ⟨(p, i), OrderedMap.next?_eq_some_iff.mpr
      ⟨mem_rebuild_iff.mpr howns, hnext⟩, rfl⟩

theorem lookup_rebuild_eq_none_iff {r : ConsistentHashRing} (hv : 1 ≤ r.vnodes)
    {members : List (Nat × String)} {key : String} :
    (r.rebuild members).lookup key = none ↔ members = [] := by
  constructor
  · intro h
    by_contra hne
    obtain ⟨e, _, he⟩ := lookup_mem (isEmpty_rebuild hv hne) key
    rw [he] at h
    exact absurd h (by simp)
  · intro h
    rw [h]
    rfl

theorem vnodes_new (vnodes : Nat) : 1 ≤ (new vnodes).vnodes := Nat.le_max_right _ _

/-- A key of member `i` stays on it in a smaller list in which `i` keeps its
points. -/
theorem lookup_rebuild_of_subset {r : ConsistentHashRing}
    {ms members : List (Nat × String)} {key : String} {i : Nat}
    (h : (r.rebuild members).lookup key = some i) (hsub : ms ⊆ members)
    (howns : ∀ p, Owns r.vnodes members p i → Owns r.vnodes ms p i) :
    (r.rebuild ms).lookup key = some i := by
  obtain ⟨p, hp, hnext⟩ := lookup_rebuild_eq_some_iff.mp h
  have hp' := howns p hp
  exact lookup_rebuild_eq_some_iff.mpr
    ⟨p, hp', hnext.of_subset (points_mono _ hsub) hp'.mem_points⟩

/-- A key of another member stays on it when member `m` leaves. -/
theorem lookup_rebuild_remove {r : ConsistentHashRing} {pre post : List (Nat × String)}
    {m : Nat × String} {key : String} {i : Nat}
    (h : (r.rebuild (pre ++ m :: post)).lookup key = some i) (hi : i ≠ m.1) :
    (r.rebuild (pre ++ post)).lookup key = some i := by
  refine lookup_rebuild_of_subset h (fun l hl => ?_) (fun _ hp => hp.remove hi)
  rcases List.mem_append.mp hl with hl | hl
  · exact List.mem_append_left _ hl
  · exact List.mem_append_right _ (List.mem_cons_of_mem _ hl)

/-- A key of a member that stays, stays on it when any others leave. -/
theorem lookup_rebuild_filter {r : ConsistentHashRing} {members : List (Nat × String)}
    {key : String} {i : Nat} (h : (r.rebuild members).lookup key = some i)
    {keep : Nat × String → Bool} (hkeep : ∀ m ∈ members, m.1 = i → keep m = true) :
    (r.rebuild (members.filter keep)).lookup key = some i :=
  lookup_rebuild_of_subset h (List.filter_subset_self members)
    (fun _ hp => hp.filter hkeep)

/-- Inserting a member moves keys only onto that member. -/
theorem lookup_rebuild_insert {r : ConsistentHashRing} (hv : 1 ≤ r.vnodes)
    (pre post : List (Nat × String)) (m : Nat × String) (key : String) :
    (r.rebuild (pre ++ m :: post)).lookup key = (r.rebuild (pre ++ post)).lookup key ∨
      (r.rebuild (pre ++ m :: post)).lookup key = some m.1 := by
  cases h : (r.rebuild (pre ++ m :: post)).lookup key with
  | none =>
    have hnil := (lookup_rebuild_eq_none_iff hv).mp h
    simp at hnil
  | some i =>
    by_cases hi : i = m.1
    · exact Or.inr (by rw [hi])
    · exact Or.inl (lookup_rebuild_remove h hi).symm

/-- Consistent hashing remaps minimally, for every number of virtual nodes and
every list of members, with or without collisions between their points.  When `m`
leaves, the keys of the others stay; when it joins, the keys that move, move onto
it.  A lookup answers the owner of the least point at or above the hash of the
key, the owner of the least point of all when there is none, and nothing exactly
when the list is empty. -/
theorem rebuild_remaps_minimally (vnodes : Nat) (key : String) :
    (∀ (pre post : List (Nat × String)) (m : Nat × String),
      (∀ i, ((new vnodes).rebuild (pre ++ m :: post)).lookup key = some i → i ≠ m.1 →
        ((new vnodes).rebuild (pre ++ post)).lookup key = some i) ∧
      (((new vnodes).rebuild (pre ++ m :: post)).lookup key =
          ((new vnodes).rebuild (pre ++ post)).lookup key ∨
        ((new vnodes).rebuild (pre ++ m :: post)).lookup key = some m.1)) ∧
    ∀ members : List (Nat × String),
      (((new vnodes).rebuild members).lookup key = none ↔ members = []) ∧
      ∀ i, ((new vnodes).rebuild members).lookup key = some i ↔
        ∃ p, Owns (max vnodes 1) members p i ∧
          IsNext (points (max vnodes 1) members) (keyPoint key) p := by
  refine ⟨fun pre post m => ⟨fun i h hi => lookup_rebuild_remove h hi, ?_⟩,
    fun members => ⟨lookup_rebuild_eq_none_iff (vnodes_new vnodes), fun i => ?_⟩⟩
  · exact lookup_rebuild_insert (vnodes_new vnodes) pre post m key
  · exact lookup_rebuild_eq_some_iff

end ConsistentHashRing

end Echofront
