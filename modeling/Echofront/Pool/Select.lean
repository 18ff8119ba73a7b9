import Echofront.Pool.Basic
import Mathlib.Data.List.Range
import Mathlib.Data.List.Nodup
import Mathlib.Algebra.BigOperators.Group.List.Basic

/-!
# What a selection does

`Pool.select` filters the available backends and then picks one of them by the
strategy.  This module says what each picker returns and what it changes.

* `SelectFrame` is the frame: a selection keeps everything but the cursor, the
  current weights and the cached ring.
* `Visited` is the invariant of the loop of `select_weighted`, and `visited`
  the induction over the available list.
* `selectLeastConn_mem`, `selectRoundRobin_mem` and `selectHash_mem` say that the
  other pickers stay inside the available list.  For the hash this needs the
  ring invariant `RingOk`: a ring that is not stale was built from exactly the
  members that its signature names.
* `select_mem`, `select_eq_none_iff` and `selectFrame_select` say what a selection
  returns, when it returns nothing, and what it leaves as it was.
-/

namespace Echofront

namespace Pool

/-! ## Indexing -/

theorem backend_eq_of_getElem? {p : Pool} {i : Nat} {b : Backend}
    (h : p.backends[i]? = some b) : p.backend i = b := by
  simp [backend, List.getD_eq_getElem?_getD, h]

theorem getElem?_eq_backend {p : Pool} {i : Nat} (h : i < p.backends.length) :
    p.backends[i]? = some (p.backend i) := by
  simp [backend, List.getD_eq_getElem?_getD, List.getElem?_eq_getElem h]

/-- An index out of range reads the default. -/
theorem backend_of_ge {p : Pool} {i : Nat} (h : p.backends.length ≤ i) :
    p.backend i = default := by
  simp only [backend, List.getD_eq_getElem?_getD, List.getElem?_eq_none h, Option.getD_none]

theorem lt_length_of_getElem? {p : Pool} {i : Nat} {b : Backend}
    (h : p.backends[i]? = some b) : i < p.backends.length := by
  by_contra hge
  rw [List.getElem?_eq_none (Nat.le_of_not_lt hge)] at h
  simp at h

/-- An index out of range has the default, so a field with another value is in range. -/
theorem lt_length_of_field_ne {α : Type} {p : Pool} {i : Nat} (f : Backend → α)
    (h : f (p.backend i) ≠ f default) : i < p.backends.length := by
  by_contra hge
  exact h (congrArg f (backend_of_ge (Nat.le_of_not_lt hge)))

/-- The default of an index out of range has no weight. -/
theorem lt_length_of_weight {p : Pool} {i : Nat} (h : (p.backend i).weight ≠ 0) :
    i < p.backends.length :=
  lt_length_of_field_ne Backend.weight h

@[simp] theorem modify_length (p : Pool) (i : Nat) (f : Backend → Backend) :
    (p.modify i f).backends.length = p.backends.length := by
  simp [modify]

theorem backend_modify_self {p : Pool} {i : Nat} (h : i < p.backends.length)
    (f : Backend → Backend) : (p.modify i f).backend i = f (p.backend i) := by
  simp [backend, modify, List.getD_eq_getElem?_getD, List.getElem?_eq_getElem h]

theorem backend_modify_ne {p : Pool} {i j : Nat} (h : i ≠ j)
    (f : Backend → Backend) : (p.modify i f).backend j = p.backend j := by
  simp [backend, modify, List.getD_eq_getElem?_getD, h]

/-- The new weight of an index in range. -/
theorem currentWeight_addWeight {p : Pool} {i : Nat} (h : i < p.backends.length)
    (x : Int) (j : Nat) :
    ((p.addWeight i x).backend j).currentWeight =
      (p.backend j).currentWeight + if j = i then x else 0 := by
  by_cases hj : j = i
  · rw [hj, addWeight, backend_modify_self h]
    simp
  · rw [addWeight, backend_modify_ne (Ne.symm hj)]
    simp [hj]

theorem mem_availableIndices {p : Pool} {now : Nat} {exclude : List Nat} {i : Nat} :
    i ∈ p.availableIndices now exclude ↔
      i < p.backends.length ∧ i ∉ exclude ∧ (p.backend i).isAvailable now = true := by
  simp [availableIndices]

/-- The available list is ascending. -/
theorem pairwise_availableIndices (p : Pool) (now : Nat) (exclude : List Nat) :
    (p.availableIndices now exclude).Pairwise (· < ·) :=
  List.pairwise_lt_range.filter _

theorem nodup_availableIndices (p : Pool) (now : Nat) (exclude : List Nat) :
    (p.availableIndices now exclude).Nodup :=
  List.nodup_range.filter _

end Pool

/-! ## The frame of a selection -/

/-- A backend without its current weight. -/
def Backend.eraseWeight (b : Backend) : Backend := { b with currentWeight := 0 }

/-- `q` is `p` but for the cursor, the current weights and the cached ring. -/
structure Pool.SelectFrame (p q : Pool) : Prop where
  name : q.name = p.name
  strategy : q.strategy = p.strategy
  health : q.health = p.health
  ewma : q.ewma = p.ewma
  backends : q.backends.map Backend.eraseWeight = p.backends.map Backend.eraseWeight

namespace Pool

theorem SelectFrame.refl (p : Pool) : SelectFrame p p := ⟨rfl, rfl, rfl, rfl, rfl⟩

theorem SelectFrame.trans {p q r : Pool} (h : SelectFrame p q)
    (h' : SelectFrame q r) : SelectFrame p r :=
  ⟨h'.name.trans h.name, h'.strategy.trans h.strategy, h'.health.trans h.health,
    h'.ewma.trans h.ewma, h'.backends.trans h.backends⟩

theorem SelectFrame.length {p q : Pool} (h : SelectFrame p q) :
    q.backends.length = p.backends.length := by
  simpa using congrArg List.length h.backends

theorem SelectFrame.backend {p q : Pool} (h : SelectFrame p q) (i : Nat) :
    (q.backend i).eraseWeight = (p.backend i).eraseWeight := by
  have hi := congrArg (fun l => l[i]?) h.backends
  simp only [List.getElem?_map] at hi
  simp only [Pool.backend, List.getD_eq_getElem?_getD]
  cases hp : p.backends[i]? <;> cases hq : q.backends[i]? <;> simp_all

/-- A current weight is not part of the frame. -/
theorem selectFrame_addWeight (p : Pool) (i : Nat) (x : Int) :
    SelectFrame p (p.addWeight i x) := by
  refine ⟨rfl, rfl, rfl, rfl, ?_⟩
  apply List.ext_getElem?
  intro j
  simp only [addWeight, modify, List.getElem?_map, List.getElem?_modify]
  cases p.backends[j]? with
  | none => rfl
  | some b =>
    by_cases hij : i = j <;> simp [hij, Backend.eraseWeight]

/-- What a frame says of one backend, field by field. -/
theorem SelectFrame.backend_eq {p q : Pool} (h : SelectFrame p q) (i : Nat) :
    q.backend i = { p.backend i with currentWeight := (q.backend i).currentWeight } := by
  have hi := h.backend i
  generalize q.backend i = c at hi ⊢
  generalize p.backend i = b at hi ⊢
  cases b
  cases c
  simpa [Backend.eraseWeight] using hi

theorem SelectFrame.weightedScore {p q : Pool} (h : SelectFrame p q) (i : Nat) :
    q.weightedScore i = p.weightedScore i := by
  unfold Pool.weightedScore
  rw [h.backend_eq i]

theorem SelectFrame.weight {p q : Pool} (h : SelectFrame p q) (i : Nat) :
    (q.backend i).weight = (p.backend i).weight := by
  rw [h.backend_eq i]

theorem SelectFrame.isAvailable {p q : Pool} (h : SelectFrame p q) (i now : Nat) :
    (q.backend i).isAvailable now = (p.backend i).isAvailable now := by
  rw [h.backend_eq i]
  rfl

theorem SelectFrame.availableIndices {p q : Pool} (h : SelectFrame p q) (now : Nat)
    (exclude : List Nat) :
    q.availableIndices now exclude = p.availableIndices now exclude := by
  unfold Pool.availableIndices
  rw [h.length]
  exact List.filter_congr (fun i _ => by rw [h.isAvailable])

/-! ## The loop of `select_weighted` -/

/-- The backends of the list that the loop does not skip. -/
def weightedOf (p : Pool) (available : List Nat) : List Nat :=
  available.filter (fun i => decide ((p.backend i).weight ≠ 0))

/-- The sum of the scores of the backends of a list. -/
def scoreSum (p : Pool) (is : List Nat) : Int := (is.map p.weightedScore).sum

/-- Backend `b` has a greater current weight than `i`, or the same weight and it
does not come later. -/
def Beats (p : Pool) (b i : Nat) : Prop :=
  (p.backend i).currentWeight < (p.backend b).currentWeight ∨
    ((p.backend i).currentWeight = (p.backend b).currentWeight ∧ b ≤ i)

/-- What the loop has done after the indices `vs`.  It has added the score of
every backend that it did not skip, and `best` is the first of those with the
greatest weight. -/
structure Visited (p : Pool) (vs : List Nat) (s : WeightedLoop) : Prop where
  frame : SelectFrame p s.pool
  cursor : s.pool.rrCursor = p.rrCursor
  ring : s.pool.ring = p.ring
  signature : s.pool.ringSignature = p.ringSignature
  total : s.total = p.scoreSum (p.weightedOf vs)
  current : ∀ i, (s.pool.backend i).currentWeight =
    (p.backend i).currentWeight + if i ∈ p.weightedOf vs then p.weightedScore i else 0
  best_none : s.best = none → p.weightedOf vs = []
  best_some : ∀ b, s.best = some b → b ∈ p.weightedOf vs ∧
    ∀ i ∈ p.weightedOf vs, s.pool.Beats b i

theorem visited_nil (p : Pool) : Visited p [] ⟨none, 0, p⟩ where
  frame := .refl p
  cursor := rfl
  ring := rfl
  signature := rfl
  total := rfl
  current := fun i => by simp [weightedOf]
  best_none := fun _ => rfl
  best_some := fun b h => by simp at h

/-- A turn that skips a backend without weight. -/
theorem Visited.skip {p : Pool} {vs : List Nat} {s : WeightedLoop}
    (h : Visited p vs s) {i : Nat} (hw : (p.backend i).weight = 0) :
    Visited p (vs ++ [i]) (s.visit i) := by
  have hs : s.visit i = s := by
    simp [WeightedLoop.visit, h.frame.weight, hw]
  have hvs : p.weightedOf (vs ++ [i]) = p.weightedOf vs := by
    simp [weightedOf, hw]
  rw [hs]
  refine ⟨h.frame, h.cursor, h.ring, h.signature, ?_, ?_, ?_, ?_⟩ <;> rw [hvs]
  · exact h.total
  · exact h.current
  · exact h.best_none
  · exact h.best_some

/-- The best of a list that grows at its end.  `b` beats all of `is` in `p`, the
weights of `is` are the same in `q`, and the later index `i` joins the list. -/
theorem heavier_spec {p q : Pool} {is : List Nat} {best : Option Nat} {i : Nat}
    (hnone : best = none → is = [])
    (hsome : ∀ b, best = some b → b ∈ is ∧ ∀ j ∈ is, p.Beats b j)
    (hq : ∀ j ∈ is, (q.backend j).currentWeight = (p.backend j).currentWeight)
    (hi : ∀ j ∈ is, j < i) {b : Nat} (hb : q.heavier best i = some b) :
    b ∈ is ++ [i] ∧ ∀ j ∈ is ++ [i], q.Beats b j := by
  cases best with
  | none =>
    obtain rfl : i = b := by simpa [heavier] using hb
    simp [hnone rfl, Beats]
  | some c =>
    obtain ⟨hc, hmax⟩ := hsome c rfl
    have hmaxq : ∀ j ∈ is, q.Beats c j := by
      intro j hj
      unfold Beats
      rw [hq j hj, hq c hc]
      exact hmax j hj
    rw [heavier] at hb
    split_ifs at hb with hlt
    · obtain rfl : i = b := by simpa using hb
      refine ⟨by simp, fun j hj => ?_⟩
      rcases List.mem_append.mp hj with hj | hj
      · rcases hmaxq j hj with h | ⟨h, _⟩
        · exact Or.inl (Int.lt_trans h hlt)
        · exact Or.inl (h ▸ hlt)
      · exact Or.inr (by simp [List.mem_singleton.mp hj])
    · obtain rfl : c = b := by simpa using hb
      refine ⟨List.mem_append_left _ hc, fun j hj => ?_⟩
      rcases List.mem_append.mp hj with hj | hj
      · exact hmaxq j hj
      · rw [List.mem_singleton.mp hj]
        rcases Int.lt_or_eq_of_le (Int.not_lt.mp hlt) with h | h
        · exact Or.inl h
        · exact Or.inr ⟨h, Nat.le_of_lt (hi c hc)⟩

theorem heavier_ne_none (p : Pool) (best : Option Nat) (i : Nat) :
    p.heavier best i ≠ none := by
  unfold heavier
  cases best with
  | none => simp
  | some b => simp only; split_ifs <;> simp

/-- A turn that takes a backend with weight. -/
theorem Visited.take {p : Pool} {vs : List Nat} {s : WeightedLoop}
    (h : Visited p vs s) {i : Nat} (hw : (p.backend i).weight ≠ 0)
    (hi : ∀ j ∈ vs, j < i) : Visited p (vs ++ [i]) (s.visit i) := by
  have hlen : i < s.pool.backends.length := by
    rw [h.frame.length]
    exact lt_length_of_weight hw
  have hws : (s.pool.backend i).weight ≠ 0 := by rwa [h.frame.weight]
  have hvs : p.weightedOf (vs ++ [i]) = p.weightedOf vs ++ [i] := by
    simp [weightedOf, hw]
  have hlater : ∀ j ∈ p.weightedOf vs, j < i := fun j hj => hi j (List.mem_of_mem_filter hj)
  have hnot : i ∉ p.weightedOf vs := fun hmem => Nat.lt_irrefl i (hlater i hmem)
  have hweight := currentWeight_addWeight hlen (p.weightedScore i)
  have hvisit : s.visit i =
      { best := (s.pool.addWeight i (p.weightedScore i)).heavier s.best i
        total := s.total + p.weightedScore i
        pool := s.pool.addWeight i (p.weightedScore i) } := by
    simp only [WeightedLoop.visit, if_neg hws, h.frame.weightedScore]
  rw [hvisit]
  refine ⟨h.frame.trans (selectFrame_addWeight _ _ _), h.cursor, h.ring, h.signature,
    ?_, ?_, ?_, ?_⟩
  · simp [hvs, scoreSum, h.total]
  · intro j
    rw [hweight j, h.current j, hvs]
    by_cases hj : j = i
    · simp [hj, hnot]
    · simp [hj]
  · exact fun hb => absurd hb (heavier_ne_none _ _ _)
  · intro b hb
    rw [hvs]
    refine heavier_spec h.best_none h.best_some (fun j hj => ?_) hlater hb
    have hji : j ≠ i := fun he => hnot (he ▸ hj)
    rw [hweight j]
    simp [hji]

/-- The loop over the available list, by induction from its end. -/
theorem visited (p : Pool) {available : List Nat} (hlt : available.Pairwise (· < ·)) :
    Visited p available (available.foldl WeightedLoop.visit ⟨none, 0, p⟩) := by
  induction available using List.reverseRecOn with
  | nil => exact visited_nil p
  | append_singleton vs i ih =>
    obtain ⟨hvs, _, hi⟩ := List.pairwise_append.mp hlt
    rw [List.foldl_append]
    by_cases hw : (p.backend i).weight = 0
    · exact (ih hvs).skip hw
    · exact (ih hvs).take hw (fun j hj => hi j hj i (by simp))

/-- `select_weighted` when it returns nothing: it skipped every backend. -/
theorem selectWeighted_none {p : Pool} {available : List Nat}
    (hlt : available.Pairwise (· < ·)) (h : (p.selectWeighted available).1 = none) :
    p.weightedOf available = [] ∧ SelectFrame p (p.selectWeighted available).2 := by
  have hv := visited p hlt
  unfold selectWeighted at h ⊢
  generalize available.foldl WeightedLoop.visit ⟨none, 0, p⟩ = s at h hv ⊢
  cases hb : s.best with
  | none => exact ⟨hv.best_none hb, by simpa [hb] using hv.frame⟩
  | some b => simp [hb] at h

/-- `select_weighted` when it returns `b`: the first of the greatest weights
after the scores have been added, and the sum of the scores is taken from it. -/
theorem selectWeighted_some {p : Pool} {available : List Nat}
    (hlt : available.Pairwise (· < ·)) {b : Nat}
    (h : (p.selectWeighted available).1 = some b) :
    SelectFrame p (p.selectWeighted available).2 ∧
    b ∈ p.weightedOf available ∧
    (∀ i ∈ p.weightedOf available,
      (p.backend i).currentWeight + p.weightedScore i <
          (p.backend b).currentWeight + p.weightedScore b ∨
        ((p.backend i).currentWeight + p.weightedScore i =
          (p.backend b).currentWeight + p.weightedScore b ∧ b ≤ i)) ∧
    ∀ i, ((p.selectWeighted available).2.backend i).currentWeight =
      (p.backend i).currentWeight +
        (if i ∈ p.weightedOf available then p.weightedScore i else 0) -
        if i = b then p.scoreSum (p.weightedOf available) else 0 := by
  have hv := visited p hlt
  unfold selectWeighted at h ⊢
  generalize available.foldl WeightedLoop.visit ⟨none, 0, p⟩ = s at h hv ⊢
  cases hb : s.best with
  | none => simp [hb] at h
  | some c =>
    obtain rfl : c = b := by simpa [hb] using h
    obtain ⟨hmem, hmax⟩ := hv.best_some c hb
    have hlen : c < s.pool.backends.length := by
      rw [hv.frame.length]
      exact lt_length_of_weight (by simpa [weightedOf] using (List.mem_filter.mp hmem).2)
    simp only [hb]
    refine ⟨hv.frame.trans (selectFrame_addWeight _ _ _), hmem, ?_, ?_⟩
    · intro i hi
      have hbeats := hmax i hi
      unfold Beats at hbeats
      rw [hv.current i, hv.current c, if_pos hi, if_pos hmem] at hbeats
      exact hbeats
    · intro i
      rw [currentWeight_addWeight hlen, hv.current i, hv.total]
      split_ifs <;> omega

/-- A weighted selection that skips every backend leaves the pool as it is. -/
theorem selectWeighted_of_nil {p : Pool} {available : List Nat}
    (h : p.weightedOf available = []) : p.selectWeighted available = (none, p) := by
  have hskip : available.foldl WeightedLoop.visit ⟨none, 0, p⟩ = ⟨none, 0, p⟩ := by
    induction available with
    | nil => rfl
    | cons i vs ih =>
      have hw : (p.backend i).weight = 0 := by
        by_contra hne
        simp [weightedOf, hne] at h
      have hvs : p.weightedOf vs = [] := by simpa [weightedOf, hw] using h
      have hi : WeightedLoop.visit ⟨none, 0, p⟩ i = ⟨none, 0, p⟩ := by
        simp [WeightedLoop.visit, hw]
      rw [List.foldl_cons, hi]
      exact ih hvs
  simp [selectWeighted, hskip]

/-! ## The other pickers -/

theorem selectRoundRobin_mem (p : Pool) {available : List Nat} (h : available ≠ []) :
    (p.selectRoundRobin available).1 ∈ available := by
  have hlen : p.rrCursor % available.length < available.length :=
    Nat.mod_lt _ (List.length_pos_iff.mpr h)
  simp only [selectRoundRobin, List.getD_eq_getElem?_getD,
    List.getElem?_eq_getElem hlen, Option.getD_some]
  exact List.getElem_mem hlen

theorem selectLeastConn_mem (p : Pool) {available : List Nat} (h : available ≠ []) :
    p.selectLeastConn available ∈ available := by
  have aux : ∀ (is : List Nat) (best : Nat),
      is.foldl (fun best i =>
        if (p.backend i).inFlight < (p.backend best).inFlight then i else best) best ∈
        best :: is := by
    intro is
    induction is with
    | nil => intro best; simp
    | cons i is ih =>
      intro best
      rw [List.foldl_cons]
      split_ifs
      · exact List.mem_cons_of_mem _ (ih i)
      · rcases List.mem_cons.mp (ih best) with he | hmem
        · rw [he]
          exact List.mem_cons_self
        · exact List.mem_cons_of_mem _ (List.mem_cons_of_mem _ hmem)
  unfold selectLeastConn
  cases available with
  | nil => exact absurd rfl h
  | cons a is =>
    rcases List.mem_cons.mp (aux (a :: is) a) with he | hmem
    · rw [List.headD_cons, he]
      exact List.mem_cons_self
    · exact hmem

/-- The cached ring is not stale: when the signature is not empty, the ring was
rebuilt from the members that the signature names. -/
structure RingOk (p : Pool) : Prop where
  vnodes : 1 ≤ p.ring.vnodes
  ring : p.ringSignature ≠ [] →
    p.ring = p.ring.rebuild (p.ringMembers p.ringSignature)

/-- The ring that `select_hash` looks a key up in. -/
def freshRing (p : Pool) (available : List Nat) : ConsistentHashRing :=
  p.ring.rebuild (p.ringMembers available)

theorem ringMembers_fst (p : Pool) (available : List Nat) :
    (p.ringMembers available).map Prod.fst = available := by
  simp [ringMembers, Function.comp_def]

/-- With a key, `select_hash` answers the lookup in a fresh ring, whether it
rebuilds the cached one or not. -/
theorem selectHash_some {p : Pool} (hok : RingOk p) {available : List Nat}
    (h : available ≠ []) (key : String) :
    (p.selectHash available (some key)).1 =
      ((p.freshRing available).lookup key).getD (available.headD 0) := by
  unfold selectHash freshRing
  split_ifs with hstale
  · rfl
  · obtain ⟨hsig, _⟩ := not_or.mp hstale
    have hsig : p.ringSignature = available := not_not.mp hsig
    have hring := hok.ring (by rwa [hsig])
    rw [hsig] at hring
    simp only
    rw [← hring]

theorem freshRing_lookup_mem {p : Pool} (hok : RingOk p) {available : List Nat}
    (h : available ≠ []) (key : String) :
    ∃ i ∈ available, (p.freshRing available).lookup key = some i := by
  have hne : p.ringMembers available ≠ [] := by
    simpa [ringMembers] using h
  have hempty : (p.freshRing available).isEmpty = false :=
    ConsistentHashRing.isEmpty_rebuild hok.vnodes hne
  obtain ⟨e, he, hl⟩ := ConsistentHashRing.lookup_mem hempty key
  have hmem := ConsistentHashRing.mem_rebuild he
  rw [ringMembers_fst] at hmem
  exact ⟨e.2, hmem, hl⟩

theorem selectHash_mem {p : Pool} (hok : RingOk p) {available : List Nat}
    (h : available ≠ []) (key : Option String) :
    (p.selectHash available key).1 ∈ available := by
  cases key with
  | none => exact p.selectRoundRobin_mem h
  | some key =>
    obtain ⟨i, hi, hl⟩ := freshRing_lookup_mem hok h key
    rw [selectHash_some hok h, hl]
    exact hi

theorem selectFrame_selectHash (p : Pool) (available : List Nat) (key : Option String) :
    SelectFrame p (p.selectHash available key).2 := by
  cases key with
  | none => exact ⟨rfl, rfl, rfl, rfl, rfl⟩
  | some key =>
    unfold selectHash
    split_ifs <;> exact ⟨rfl, rfl, rfl, rfl, rfl⟩

/-! ## The selection -/

/-- The backends that a selection may return: the available ones, without those
of weight zero under the weighted strategy. -/
def candidates (p : Pool) (now : Nat) (exclude : List Nat) : List Nat :=
  match p.strategy with
  | .weighted => p.weightedOf (p.availableIndices now exclude)
  | _ => p.availableIndices now exclude

theorem mem_candidates {p : Pool} {now : Nat} {exclude : List Nat} {i : Nat} :
    i ∈ p.candidates now exclude ↔
      i < p.backends.length ∧ i ∉ exclude ∧ (p.backend i).isAvailable now = true ∧
        (p.strategy = .weighted → (p.backend i).weight ≠ 0) := by
  cases hs : p.strategy <;>
    simp [candidates, hs, weightedOf, mem_availableIndices, and_assoc]

theorem nodup_candidates (p : Pool) (now : Nat) (exclude : List Nat) :
    (p.candidates now exclude).Nodup := by
  have hn := p.nodup_availableIndices now exclude
  cases hs : p.strategy <;> simp only [candidates, hs]
  case weighted => exact hn.filter _
  all_goals exact hn

theorem SelectFrame.candidates {p q : Pool} (h : SelectFrame p q) (now : Nat)
    (exclude : List Nat) : q.candidates now exclude = p.candidates now exclude := by
  unfold Pool.candidates
  rw [h.strategy, h.availableIndices]
  cases p.strategy
  case weighted =>
    exact List.filter_congr (fun i _ => by rw [h.weight])
  all_goals rfl

theorem select_of_unavailable {p : Pool} {now : Nat} (key : Option String)
    {exclude : List Nat} (h : p.availableIndices now exclude = []) :
    p.select now key exclude = (none, p) := by
  simp [select, h]

/-- The choice by strategy, when something is available. -/
theorem select_of_available {p : Pool} {now : Nat} (key : Option String)
    {exclude : List Nat} (h : p.availableIndices now exclude ≠ []) :
    p.select now key exclude =
      let available := p.availableIndices now exclude
      match p.strategy with
      | .roundRobin => (some (p.selectRoundRobin available).1, (p.selectRoundRobin available).2)
      | .weighted => p.selectWeighted available
      | .leastConnections => (some (p.selectLeastConn available), p)
      | .consistentHash =>
        (some (p.selectHash available key).1, (p.selectHash available key).2) := by
  have hempty : ¬ (p.availableIndices now exclude).isEmpty = true := by simpa using h
  refine (if_neg hempty).trans ?_
  cases p.strategy <;> rfl

/-- A selection returns a candidate. -/
theorem select_mem {p : Pool} (hok : RingOk p) {now : Nat} {key : Option String}
    {exclude : List Nat} {i : Nat} (h : (p.select now key exclude).1 = some i) :
    i ∈ p.candidates now exclude := by
  by_cases hne : p.availableIndices now exclude = []
  · simp [select_of_unavailable key hne] at h
  · rw [select_of_available key hne] at h
    unfold candidates
    cases hs : p.strategy <;> simp only [hs, Option.some.injEq] at h
    · exact h ▸ p.selectRoundRobin_mem hne
    · exact (selectWeighted_some (p.pairwise_availableIndices now exclude) h).2.1
    · exact h ▸ p.selectLeastConn_mem hne
    · exact h ▸ selectHash_mem hok hne key

/-- With a candidate, a selection returns something. -/
theorem select_isSome {p : Pool} {now : Nat} (key : Option String)
    {exclude : List Nat} (h : p.candidates now exclude ≠ []) :
    (p.select now key exclude).1 ≠ none := by
  intro hnone
  unfold candidates at h
  by_cases hne : p.availableIndices now exclude = []
  · cases hs : p.strategy <;> simp [hs, hne, weightedOf] at h
  · rw [select_of_available key hne] at hnone
    cases hs : p.strategy <;> simp only [hs, reduceCtorEq] at hnone h
    exact h (selectWeighted_none (p.pairwise_availableIndices now exclude) hnone).1

/-- Without a candidate, a selection returns nothing and changes nothing. -/
theorem select_of_nil {p : Pool} {now : Nat} (key : Option String)
    {exclude : List Nat} (h : p.candidates now exclude = []) :
    p.select now key exclude = (none, p) := by
  unfold candidates at h
  by_cases hne : p.availableIndices now exclude = []
  · exact select_of_unavailable key hne
  · rw [select_of_available key hne]
    cases hs : p.strategy <;> simp only [hs] at h
    case weighted => exact selectWeighted_of_nil h
    all_goals exact absurd h hne

theorem select_eq_none_iff {p : Pool} {now : Nat} {key : Option String}
    {exclude : List Nat} :
    (p.select now key exclude).1 = none ↔ p.candidates now exclude = [] := by
  constructor
  · intro h
    by_contra hne
    exact select_isSome key hne h
  · intro h
    rw [select_of_nil key h]

/-- Whatever a selection returns, it changes nothing but what it may change. -/
theorem selectFrame_select (p : Pool) (now : Nat) (key : Option String)
    (exclude : List Nat) : SelectFrame p (p.select now key exclude).2 := by
  by_cases hne : p.availableIndices now exclude = []
  · rw [select_of_unavailable key hne]
    exact .refl p
  · rw [select_of_available key hne]
    have hn := p.pairwise_availableIndices now exclude
    cases p.strategy
    case roundRobin => exact ⟨rfl, rfl, rfl, rfl, rfl⟩
    case weighted =>
      cases hw : (p.selectWeighted (p.availableIndices now exclude)).1 with
      | none => exact (selectWeighted_none hn hw).2
      | some b => exact (selectWeighted_some hn hw).1
    case leastConnections => exact .refl p
    case consistentHash => exact selectFrame_selectHash p _ key

/-- A selection leaves the cached ring, or caches the fresh ring of what was
available. -/
theorem select_ring_cases (p : Pool) (now : Nat) (key : Option String)
    (exclude : List Nat) :
    ((p.select now key exclude).2.ring = p.ring ∧
      (p.select now key exclude).2.ringSignature = p.ringSignature) ∨
    ((p.select now key exclude).2.ring =
        p.freshRing (p.availableIndices now exclude) ∧
      (p.select now key exclude).2.ringSignature = p.availableIndices now exclude) := by
  by_cases hne : p.availableIndices now exclude = []
  · rw [select_of_unavailable key hne]
    exact Or.inl ⟨rfl, rfl⟩
  · rw [select_of_available key hne]
    cases p.strategy
    case roundRobin => exact Or.inl ⟨rfl, rfl⟩
    case weighted =>
      have hv := visited p (p.pairwise_availableIndices now exclude)
      refine Or.inl ?_
      simp only [selectWeighted]
      split
      · exact ⟨hv.ring, hv.signature⟩
      · exact ⟨hv.ring, hv.signature⟩
    case leastConnections => exact Or.inl ⟨rfl, rfl⟩
    case consistentHash =>
      cases key with
      | none => exact Or.inl ⟨rfl, rfl⟩
      | some key =>
        simp only [selectHash]
        split_ifs
        · exact Or.inr ⟨rfl, rfl⟩
        · exact Or.inl ⟨rfl, rfl⟩

/-- The ring invariant depends on the names of the backends only. -/
theorem RingOk.congr {p q : Pool} (h : RingOk p) (hring : q.ring = p.ring)
    (hsig : q.ringSignature = p.ringSignature)
    (hname : ∀ i, (q.backend i).name = (p.backend i).name) : RingOk q where
  vnodes := by rw [hring]; exact h.vnodes
  ring := by
    have hmem : q.ringMembers q.ringSignature = p.ringMembers p.ringSignature := by
      simp only [ringMembers, hsig, hname]
    rw [hmem, hring, hsig]
    exact h.ring

theorem SelectFrame.name_backend {p q : Pool} (h : SelectFrame p q) (i : Nat) :
    (q.backend i).name = (p.backend i).name := by
  rw [h.backend_eq i]

theorem ringOk_select {p : Pool} (h : RingOk p) (now : Nat) (key : Option String)
    (exclude : List Nat) : RingOk (p.select now key exclude).2 := by
  have hname := (p.selectFrame_select now key exclude).name_backend
  rcases p.select_ring_cases now key exclude with ⟨hring, hsig⟩ | ⟨hring, hsig⟩
  · exact h.congr hring hsig hname
  · refine ⟨by rw [hring]; exact h.vnodes, fun _ => ?_⟩
    simp only [hring, hsig, freshRing, ringMembers, hname]
    rfl

end Pool

end Echofront
