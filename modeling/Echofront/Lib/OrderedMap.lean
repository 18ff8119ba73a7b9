import Mathlib.Order.Lattice
import Mathlib.Data.List.Pairwise
import Mathlib.Data.Set.Basic
import Mathlib.Tactic.Common

/-!
# Ordered maps

A map over a linear order, as its list of entries in key order.  The order of
the entries is a field, so every value of the type is a map.  `insert` replaces
the value of a key that is present.  `ceiling?` is the successor query of a
search tree: the first entry whose key is at or above a bound.

`mem_insert_imp` says where the entries after an insertion come from, and
`mem_insert` which entries those are.  `ceiling?_mem` and `first?_mem` say that
the queries return entries of the map.

`next?` walks the keys as a circle: the ceiling of a bound, or the first entry
when nothing is at or above it.  `IsNext` is the same notion on a set of keys,
`next?_eq_some_iff` connects the two, and `IsNext.of_subset` says that a next key
stays the next key when other keys go away.
-/

namespace Echofront.Lib

variable {K V : Type} [LinearOrder K]

/-- Insertion into a list of entries in key order. -/
def insertEntry (k : K) (v : V) : List (K × V) → List (K × V)
  | [] => [(k, v)]
  | e :: es =>
    if k < e.1 then (k, v) :: e :: es
    else if k = e.1 then (k, v) :: es
    else e :: insertEntry k v es

theorem mem_insertEntry_imp {k : K} {v : V} {e : K × V} {es : List (K × V)}
    (h : e ∈ insertEntry k v es) : e = (k, v) ∨ e ∈ es := by
  induction es with
  | nil => simpa [insertEntry] using h
  | cons d es ih =>
    rw [insertEntry] at h
    split_ifs at h with hlt heq
    · simpa using h
    · rcases List.mem_cons.mp h with rfl | hmem
      · exact Or.inl rfl
      · exact Or.inr (List.mem_cons_of_mem _ hmem)
    · rcases List.mem_cons.mp h with rfl | hmem
      · exact Or.inr (by simp)
      · exact (ih hmem).imp_right (List.mem_cons_of_mem _)

theorem sorted_insertEntry (k : K) (v : V) {es : List (K × V)}
    (h : es.Pairwise (fun a b => a.1 < b.1)) :
    (insertEntry k v es).Pairwise (fun a b => a.1 < b.1) := by
  induction es with
  | nil => simp [insertEntry]
  | cons d es ih =>
    have hd : ∀ e ∈ es, d.1 < e.1 := (List.pairwise_cons.mp h).1
    have hes := (List.pairwise_cons.mp h).2
    rw [insertEntry]
    split_ifs with hlt heq
    · refine List.pairwise_cons.mpr ⟨fun e he => ?_, h⟩
      rcases List.mem_cons.mp he with rfl | hmem
      · exact hlt
      · exact lt_trans hlt (hd e hmem)
    · refine List.pairwise_cons.mpr ⟨fun e he => ?_, hes⟩
      simpa [heq] using hd e he
    · refine List.pairwise_cons.mpr ⟨fun e he => ?_, ih hes⟩
      rcases mem_insertEntry_imp he with rfl | hmem
      · exact lt_of_le_of_ne (not_lt.mp hlt) (Ne.symm heq)
      · exact hd e hmem

/-- A map over a linear order. -/
structure OrderedMap (K V : Type) [LinearOrder K] where
  entries : List (K × V)
  sorted : entries.Pairwise (fun a b => a.1 < b.1)

namespace OrderedMap

instance [DecidableEq V] : DecidableEq (OrderedMap K V) := fun m n =>
  decidable_of_iff (m.entries = n.entries) (by
    constructor
    · intro h
      cases m
      cases n
      simpa using h
    · intro h
      rw [h])

def empty : OrderedMap K V := ⟨[], List.Pairwise.nil⟩

def isEmpty (m : OrderedMap K V) : Bool := m.entries.isEmpty

def insert (m : OrderedMap K V) (k : K) (v : V) : OrderedMap K V :=
  ⟨insertEntry k v m.entries, sorted_insertEntry k v m.sorted⟩

/-- The first entry, by key. -/
def first? (m : OrderedMap K V) : Option (K × V) := m.entries.head?

/-- The first entry whose key is at or above `k`. -/
def ceiling? (m : OrderedMap K V) (k : K) : Option (K × V) :=
  m.entries.find? (fun e => decide (k ≤ e.1))

theorem isEmpty_insert (m : OrderedMap K V) (k : K) (v : V) :
    (m.insert k v).isEmpty = false := by
  have aux : ∀ es : List (K × V), (insertEntry k v es).isEmpty = false := by
    intro es
    cases es with
    | nil => rfl
    | cons e es =>
      rw [insertEntry]
      split_ifs <;> rfl
  exact aux m.entries

/-- A value of an insertion is the new value or an old one. -/
theorem mem_insert_imp {m : OrderedMap K V} {k : K} {v : V} {e : K × V}
    (h : e ∈ (m.insert k v).entries) : e = (k, v) ∨ e ∈ m.entries :=
  mem_insertEntry_imp h

theorem ceiling?_mem {m : OrderedMap K V} {k : K} {e : K × V}
    (h : m.ceiling? k = some e) : e ∈ m.entries :=
  List.mem_of_find?_eq_some h

theorem first?_mem {m : OrderedMap K V} {e : K × V} (h : m.first? = some e) :
    e ∈ m.entries :=
  List.mem_of_head? h

theorem first?_isSome {m : OrderedMap K V} (h : m.isEmpty = false) :
    m.first?.isSome := by
  unfold isEmpty at h
  unfold first?
  cases hm : m.entries with
  | nil => simp [hm] at h
  | cons e es => simp

/-! ## The entries of an insertion -/

/-- Two entries of a map with one key are one entry. -/
theorem eq_of_key_eq {m : OrderedMap K V} {d e : K × V} (hd : d ∈ m.entries)
    (he : e ∈ m.entries) (h : d.1 = e.1) : d = e := by
  have aux : ∀ es : List (K × V), es.Pairwise (fun a b => a.1 < b.1) →
      d ∈ es → e ∈ es → d = e := by
    intro es
    induction es with
    | nil => intro _ hd; simp at hd
    | cons a es ih =>
      intro hs hd he
      have ha := (List.pairwise_cons.mp hs).1
      rcases List.mem_cons.mp hd with rfl | hdes
      · rcases List.mem_cons.mp he with rfl | hees
        · rfl
        · exact absurd h (ha e hees).ne
      · rcases List.mem_cons.mp he with rfl | hees
        · exact absurd h (ha d hdes).ne'
        · exact ih (List.pairwise_cons.mp hs).2 hdes hees
  exact aux m.entries m.sorted hd he

theorem nodup_keys (m : OrderedMap K V) : (m.entries.map Prod.fst).Nodup :=
  List.pairwise_map.mpr (m.sorted.imp fun h => h.ne)

/-- The entries of an insertion: the new one, and the old ones with other keys. -/
theorem mem_insert {m : OrderedMap K V} {k : K} {v : V} {e : K × V} :
    e ∈ (m.insert k v).entries ↔ e = (k, v) ∨ e ∈ m.entries ∧ e.1 ≠ k := by
  have aux : ∀ es : List (K × V), es.Pairwise (fun a b => a.1 < b.1) →
      (e ∈ insertEntry k v es ↔ e = (k, v) ∨ e ∈ es ∧ e.1 ≠ k) := by
    intro es
    induction es with
    | nil => intro _; simp [insertEntry]
    | cons d es ih =>
      intro hs
      have hd : ∀ a ∈ es, d.1 < a.1 := (List.pairwise_cons.mp hs).1
      rw [insertEntry]
      split_ifs with hlt heq
      · -- every old key is above `k`
        have hne : ∀ a ∈ d :: es, a.1 ≠ k := by
          intro a ha
          rcases List.mem_cons.mp ha with rfl | ha
          · exact hlt.ne'
          · exact (lt_trans hlt (hd a ha)).ne'
        constructor
        · intro h
          rcases List.mem_cons.mp h with h | h
          · exact Or.inl h
          · exact Or.inr ⟨h, hne e h⟩
        · intro h
          rcases h with h | h
          · exact List.mem_cons.mpr (Or.inl h)
          · exact List.mem_cons.mpr (Or.inr h.1)
      · -- `d` is the entry that is replaced
        have hne : ∀ a ∈ es, a.1 ≠ k := fun a ha => heq ▸ (hd a ha).ne'
        constructor
        · intro h
          rcases List.mem_cons.mp h with h | h
          · exact Or.inl h
          · exact Or.inr ⟨List.mem_cons_of_mem _ h, hne e h⟩
        · intro h
          rcases h with h | ⟨h, hk⟩
          · exact List.mem_cons.mpr (Or.inl h)
          · rcases List.mem_cons.mp h with rfl | h
            · exact absurd heq.symm hk
            · exact List.mem_cons_of_mem _ h
      · have ih := ih (List.pairwise_cons.mp hs).2
        constructor
        · intro h
          rcases List.mem_cons.mp h with rfl | h
          · exact Or.inr ⟨by simp, fun hk => heq hk.symm⟩
          · exact (ih.mp h).imp_right (fun h => ⟨List.mem_cons_of_mem _ h.1, h.2⟩)
        · intro h
          rcases h with h | ⟨h, hk⟩
          · exact List.mem_cons_of_mem _ (ih.mpr (Or.inl h))
          · rcases List.mem_cons.mp h with rfl | h
            · simp
            · exact List.mem_cons_of_mem _ (ih.mpr (Or.inr ⟨h, hk⟩))
  exact aux m.entries m.sorted

end OrderedMap

/-! ## The next key around a circle -/

/-- `p` is the key that follows the bound `k` on the circle of the keys `S`: the
least key at or above `k`, and the least key of all when there is none. -/
def IsNext (S : Set K) (k p : K) : Prop :=
  p ∈ S ∧ ((k ≤ p ∧ ∀ q ∈ S, k ≤ q → p ≤ q) ∨ (∀ q ∈ S, q < k ∧ p ≤ q))

/-- A bound has one next key. -/
theorem IsNext.unique {S : Set K} {k p q : K} (hp : IsNext S k p) (hq : IsNext S k q) :
    p = q := by
  obtain ⟨hpS, hp⟩ := hp
  obtain ⟨hqS, hq⟩ := hq
  rcases hp with ⟨hkp, hp⟩ | hp
  · rcases hq with ⟨hkq, hq⟩ | hq
    · exact le_antisymm (hp q hqS hkq) (hq p hpS hkp)
    · exact absurd (hq p hpS).1 (not_lt.mpr hkp)
  · rcases hq with ⟨hkq, _⟩ | hq
    · exact absurd (hp q hqS).1 (not_lt.mpr hkq)
    · exact le_antisymm (hp q hqS).2 (hq p hpS).2

/-- The next key stays the next key when other keys go away. -/
theorem IsNext.of_subset {S T : Set K} {k p : K} (h : IsNext S k p) (hTS : T ⊆ S)
    (hp : p ∈ T) : IsNext T k p := by
  obtain ⟨_, h⟩ := h
  refine ⟨hp, ?_⟩
  rcases h with ⟨hkp, h⟩ | h
  · exact Or.inl ⟨hkp, fun q hq => h q (hTS hq)⟩
  · exact Or.inr (fun q hq => h q (hTS hq))

namespace OrderedMap

/-- The keys of a map. -/
def keys (m : OrderedMap K V) : Set K := {k | ∃ e ∈ m.entries, e.1 = k}

/-- The entry that follows `k` on the circle of the keys. -/
def next? (m : OrderedMap K V) (k : K) : Option (K × V) := (m.ceiling? k).or m.first?

/-- `ceiling?` is the least entry at or above the bound. -/
theorem ceiling?_least {m : OrderedMap K V} {k : K} {e : K × V}
    (h : m.ceiling? k = some e) : k ≤ e.1 ∧ ∀ d ∈ m.entries, k ≤ d.1 → e.1 ≤ d.1 := by
  obtain ⟨hk, as, bs, heq, has⟩ := List.find?_eq_some_iff_append.mp h
  refine ⟨by simpa using hk, fun d hd hkd => ?_⟩
  have hsorted := m.sorted
  rw [heq] at hd hsorted
  rcases List.mem_append.mp hd with hd | hd
  · exact absurd hkd (by simpa using has d hd)
  · rcases List.mem_cons.mp hd with rfl | hd
    · exact le_refl _
    · exact ((List.pairwise_cons.mp (List.pairwise_append.mp hsorted).2.1).1 d hd).le

theorem ceiling?_eq_none {m : OrderedMap K V} {k : K} (h : m.ceiling? k = none) :
    ∀ d ∈ m.entries, d.1 < k := by
  intro d hd
  simpa using List.find?_eq_none.mp h d hd

/-- `first?` is the least entry. -/
theorem first?_least {m : OrderedMap K V} {e : K × V} (h : m.first? = some e) :
    ∀ d ∈ m.entries, e.1 ≤ d.1 := by
  intro d hd
  obtain ⟨es, heq⟩ := List.head?_eq_some_iff.mp h
  have hsorted := m.sorted
  rw [heq] at hd hsorted
  rcases List.mem_cons.mp hd with rfl | hd
  · exact le_refl _
  · exact ((List.pairwise_cons.mp hsorted).1 d hd).le

/-- The entry of `next?` holds the next key. -/
theorem next?_isNext {m : OrderedMap K V} {k : K} {e : K × V} (h : m.next? k = some e) :
    e ∈ m.entries ∧ IsNext m.keys k e.1 := by
  unfold next? at h
  cases hc : m.ceiling? k with
  | some d =>
    obtain rfl : d = e := by simpa [hc] using h
    have hmem := ceiling?_mem hc
    obtain ⟨hk, hleast⟩ := ceiling?_least hc
    refine ⟨hmem, ⟨d, hmem, rfl⟩, Or.inl ⟨hk, fun q hq hkq => ?_⟩⟩
    obtain ⟨a, ha, rfl⟩ := hq
    exact hleast a ha hkq
  | none =>
    have hf : m.first? = some e := by simpa [hc] using h
    have hmem := first?_mem hf
    refine ⟨hmem, ⟨e, hmem, rfl⟩, Or.inr (fun q hq => ?_)⟩
    obtain ⟨a, ha, rfl⟩ := hq
    exact ⟨ceiling?_eq_none hc a ha, first?_least hf a ha⟩

theorem next?_isSome {m : OrderedMap K V} (h : m.isEmpty = false) (k : K) :
    ∃ e, m.next? k = some e := by
  refine Option.isSome_iff_exists.mp ?_
  rw [next?, Option.isSome_or, first?_isSome h, Bool.or_true]

theorem next?_eq_some_iff {m : OrderedMap K V} {k : K} {e : K × V} :
    m.next? k = some e ↔ e ∈ m.entries ∧ IsNext m.keys k e.1 := by
  constructor
  · exact next?_isNext
  · intro h
    obtain ⟨hmem, hnext⟩ := h
    have hne : m.isEmpty = false := by
      unfold isEmpty
      cases hes : m.entries with
      | nil => simp [hes] at hmem
      | cons a es => rfl
    obtain ⟨d, hd⟩ := next?_isSome hne k
    obtain ⟨hdmem, hdnext⟩ := next?_isNext hd
    rw [hd, eq_of_key_eq hdmem hmem (hdnext.unique hnext)]

end OrderedMap

end Echofront.Lib
