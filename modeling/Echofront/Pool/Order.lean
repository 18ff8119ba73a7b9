import Echofront.Pool.Run

/-!
# The order of failover

A request that fails on a backend selects again without it.  `failoverOrder` is the list
of backends that it would ask if all of them failed, computed on the pool before the
request and with no reply of an upstream.

`AgreeOff` relates two pools that differ only in backends that are excluded.  They select
the same backend and go on to agree (`AgreeOff.select`), so what a request does to the
backends that it has asked changes nothing in what it asks next.
-/

namespace Echofront

open Lib

namespace Pool

/-- The pools differ at most in the backends `is`. -/
structure AgreeOff (is : List Nat) (p q : Pool) : Prop where
  strategy : q.strategy = p.strategy
  cursor : q.rrCursor = p.rrCursor
  ring : q.ring = p.ring
  signature : q.ringSignature = p.ringSignature
  length : q.backends.length = p.backends.length
  backend : ∀ i, i ∉ is → q.backend i = p.backend i

namespace AgreeOff

variable {is : List Nat} {p q : Pool}

theorem refl (is : List Nat) (p : Pool) : AgreeOff is p p :=
  ⟨rfl, rfl, rfl, rfl, rfl, fun _ _ => rfl⟩

theorem mono (h : AgreeOff is p q) (i : Nat) : AgreeOff (is ++ [i]) p q :=
  ⟨h.strategy, h.cursor, h.ring, h.signature, h.length,
    fun j hj => h.backend j (fun hmem => hj (List.mem_append_left _ hmem))⟩

/-- An update of a backend among the excluded ones does not show. -/
theorem modify_right (h : AgreeOff is p q) {i : Nat} (hi : i ∈ is) (f : Backend → Backend) :
    AgreeOff is p (q.modify i f) := by
  refine ⟨h.strategy, h.cursor, h.ring, h.signature, by simpa using h.length, fun j hj => ?_⟩
  have hne : i ≠ j := fun he => hj (he ▸ hi)
  rw [backend_modify_ne hne]
  exact h.backend j hj

/-- The same update on both sides. -/
theorem modify (h : AgreeOff is p q) (i : Nat) (f : Backend → Backend) :
    AgreeOff is (p.modify i f) (q.modify i f) := by
  refine ⟨h.strategy, h.cursor, h.ring, h.signature, by simpa using h.length, fun j hj => ?_⟩
  by_cases hij : i = j
  · subst hij
    by_cases hlt : i < p.backends.length
    · rw [backend_modify_self hlt, backend_modify_self (h.length ▸ hlt), h.backend i hj]
    · have hge := Nat.le_of_not_lt hlt
      rw [backend_of_ge (by rw [modify_length, h.length]; exact hge),
        backend_of_ge (by simpa using hge)]
  · rw [backend_modify_ne hij, backend_modify_ne hij]
    exact h.backend j hj

theorem availableIndices (h : AgreeOff is p q) (now : Nat) :
    q.availableIndices now is = p.availableIndices now is := by
  unfold Pool.availableIndices
  rw [h.length]
  refine List.filter_congr (fun i _ => ?_)
  by_cases hi : i ∈ is
  · simp [hi]
  · rw [h.backend i hi]

/-- The two loops of a weighted selection keep the same locals. -/
theorem foldl_visit {available : List Nat} (hmem : ∀ i ∈ available, i ∉ is)
    {s t : WeightedLoop} (hbest : t.best = s.best) (hin : ∀ b, s.best = some b → b ∉ is)
    (htotal : t.total = s.total) (h : AgreeOff is s.pool t.pool) :
    (available.foldl WeightedLoop.visit t).best = (available.foldl WeightedLoop.visit s).best ∧
      (∀ b, (available.foldl WeightedLoop.visit s).best = some b → b ∉ is) ∧
      (available.foldl WeightedLoop.visit t).total =
        (available.foldl WeightedLoop.visit s).total ∧
      AgreeOff is (available.foldl WeightedLoop.visit s).pool
        (available.foldl WeightedLoop.visit t).pool := by
  induction available generalizing s t with
  | nil => exact ⟨hbest, hin, htotal, h⟩
  | cons i available ih =>
    have hi : i ∉ is := hmem i (by simp)
    have hrest : ∀ j ∈ available, j ∉ is := fun j hj => hmem j (by simp [hj])
    rw [List.foldl_cons, List.foldl_cons]
    by_cases hw : (s.pool.backend i).weight = 0
    · have hs : s.visit i = s := by simp [WeightedLoop.visit, hw]
      have ht : t.visit i = t := by simp [WeightedLoop.visit, h.backend i hi, hw]
      rw [hs, ht]
      exact ih hrest hbest hin htotal h
    · have hscore : t.pool.weightedScore i = s.pool.weightedScore i := by
        unfold weightedScore
        rw [h.backend i hi]
      have hadd : AgreeOff is (s.pool.addWeight i (s.pool.weightedScore i))
          (t.pool.addWeight i (s.pool.weightedScore i)) := h.modify i _
      have hs : s.visit i =
          { best := (s.pool.addWeight i (s.pool.weightedScore i)).heavier s.best i
            total := s.total + s.pool.weightedScore i
            pool := s.pool.addWeight i (s.pool.weightedScore i) } := by
        simp only [WeightedLoop.visit, if_neg hw]
      have ht : t.visit i =
          { best := (t.pool.addWeight i (s.pool.weightedScore i)).heavier s.best i
            total := s.total + s.pool.weightedScore i
            pool := t.pool.addWeight i (s.pool.weightedScore i) } := by
        rw [← hscore, ← hbest, ← htotal]
        simp only [WeightedLoop.visit, h.backend i hi, if_neg hw]
      have hheavier : (t.pool.addWeight i (s.pool.weightedScore i)).heavier s.best i =
          (s.pool.addWeight i (s.pool.weightedScore i)).heavier s.best i := by
        cases hb : s.best with
        | none => rfl
        | some b => simp only [heavier, hadd.backend i hi, hadd.backend b (hin b hb)]
      have hin' : ∀ b, (s.pool.addWeight i (s.pool.weightedScore i)).heavier s.best i =
          some b → b ∉ is := by
        intro b hb
        cases hbest' : s.best with
        | none =>
          rw [hbest'] at hb
          exact Option.some.inj hb ▸ hi
        | some b' =>
          rw [hbest', heavier] at hb
          split_ifs at hb
          · exact Option.some.inj hb ▸ hi
          · exact Option.some.inj hb ▸ hin b' hbest'
      rw [hs, ht]
      exact ih hrest hheavier hin' rfl hadd

theorem selectWeighted (h : AgreeOff is p q) {available : List Nat}
    (hmem : ∀ i ∈ available, i ∉ is) :
    (q.selectWeighted available).1 = (p.selectWeighted available).1 ∧
      AgreeOff is (p.selectWeighted available).2 (q.selectWeighted available).2 := by
  obtain ⟨hbest, _, htotal, hpool⟩ := foldl_visit (s := ⟨none, 0, p⟩) (t := ⟨none, 0, q⟩)
    hmem rfl (fun b hb => absurd hb (by simp)) rfl h
  unfold Pool.selectWeighted
  generalize available.foldl WeightedLoop.visit ⟨none, 0, p⟩ = s at hbest htotal hpool ⊢
  generalize available.foldl WeightedLoop.visit ⟨none, 0, q⟩ = t at hbest htotal hpool ⊢
  simp only [hbest, htotal]
  cases s.best with
  | none => exact ⟨rfl, hpool⟩
  | some b => exact ⟨rfl, hpool.modify b _⟩

theorem selectRoundRobin (h : AgreeOff is p q) (available : List Nat) :
    (q.selectRoundRobin available).1 = (p.selectRoundRobin available).1 ∧
      AgreeOff is (p.selectRoundRobin available).2 (q.selectRoundRobin available).2 := by
  unfold Pool.selectRoundRobin
  rw [h.cursor]
  exact ⟨rfl, h.strategy, rfl, h.ring, h.signature, h.length, h.backend⟩

theorem selectLeastConn (h : AgreeOff is p q) {available : List Nat}
    (hmem : ∀ i ∈ available, i ∉ is) (hne : available ≠ []) :
    q.selectLeastConn available = p.selectLeastConn available := by
  have hfold : ∀ (as : List Nat) (best : Nat), (∀ i ∈ as, i ∉ is) → best ∉ is →
      as.foldl (fun best i =>
        if (q.backend i).inFlight < (q.backend best).inFlight then i else best) best =
      as.foldl (fun best i =>
        if (p.backend i).inFlight < (p.backend best).inFlight then i else best) best := by
    intro as
    induction as with
    | nil => exact fun _ _ _ => rfl
    | cons i as ih =>
      intro best has hbest
      have hi : i ∉ is := has i (by simp)
      have hrest : ∀ j ∈ as, j ∉ is := fun j hj => has j (by simp [hj])
      rw [List.foldl_cons, List.foldl_cons, h.backend i hi, h.backend best hbest]
      split_ifs
      · exact ih i hrest hi
      · exact ih best hrest hbest
  unfold Pool.selectLeastConn
  cases available with
  | nil => exact absurd rfl hne
  | cons a as => exact hfold (a :: as) a hmem (hmem a (by simp))

theorem selectHash (h : AgreeOff is p q) {available : List Nat}
    (hmem : ∀ i ∈ available, i ∉ is) (key : Option String) :
    (q.selectHash available key).1 = (p.selectHash available key).1 ∧
      AgreeOff is (p.selectHash available key).2 (q.selectHash available key).2 := by
  cases key with
  | none => exact h.selectRoundRobin available
  | some key =>
    have hmembers : q.ringMembers available = p.ringMembers available :=
      List.map_congr_left (fun i hi => by rw [h.backend i (hmem i hi)])
    simp only [Pool.selectHash, h.signature, h.ring, hmembers]
    split_ifs
    · exact ⟨rfl, h.strategy, h.cursor, rfl, rfl, h.length, h.backend⟩
    · exact ⟨by rw [h.ring], h⟩

/-- Pools that differ only in excluded backends select the same one, and go on to
differ only in these. -/
theorem select (h : AgreeOff is p q) (now : Nat) (key : Option String) :
    (q.select now key is).1 = (p.select now key is).1 ∧
      AgreeOff is (p.select now key is).2 (q.select now key is).2 := by
  have hav := h.availableIndices now
  by_cases hne : p.availableIndices now is = []
  · rw [select_of_unavailable key hne, select_of_unavailable key (hav.trans hne)]
    exact ⟨rfl, h⟩
  · have hmem : ∀ i ∈ p.availableIndices now is, i ∉ is :=
      fun i hi => (mem_availableIndices.mp hi).2.1
    rw [select_of_available key hne, select_of_available key (by rwa [hav]), hav, h.strategy]
    cases p.strategy with
    | roundRobin =>
      obtain ⟨hpick, hpool⟩ := h.selectRoundRobin (p.availableIndices now is)
      exact ⟨congrArg some hpick, hpool⟩
    | weighted => exact h.selectWeighted hmem
    | leastConnections => exact ⟨congrArg some (h.selectLeastConn hmem hne), h⟩
    | consistentHash =>
      obtain ⟨hpick, hpool⟩ := h.selectHash hmem key
      exact ⟨congrArg some hpick, hpool⟩

end AgreeOff

/-- The backends that up to `n` selections choose, each without the ones before and
without `tried`. -/
def failoverOrder (now : Nat) (key : Option String) : Nat → List Nat → Pool → List Nat
  | 0, _, _ => []
  | n + 1, tried, p =>
    match p.select now key tried with
    | (none, _) => []
    | (some i, q) => i :: failoverOrder now key n (tried ++ [i]) q

theorem failoverOrder_of_some {p : Pool} {now : Nat} {key : Option String} {tried : List Nat}
    {i : Nat} (h : (p.select now key tried).1 = some i) (n : Nat) :
    failoverOrder now key (n + 1) tried p =
      i :: failoverOrder now key n (tried ++ [i]) (p.select now key tried).2 := by
  have hpair : p.select now key tried = (some i, (p.select now key tried).2) := by rw [← h]
  rw [failoverOrder, hpair]

theorem failoverOrder_of_none {p : Pool} {now : Nat} {key : Option String} {tried : List Nat}
    (h : (p.select now key tried).1 = none) (n : Nat) :
    failoverOrder now key n tried p = [] := by
  have hpair : p.select now key tried = (none, (p.select now key tried).2) := by rw [← h]
  cases n with
  | zero => rfl
  | succ n => rw [failoverOrder, hpair]

/-- The candidates without one more backend. -/
theorem candidates_concat (p : Pool) (now : Nat) (tried : List Nat) (i : Nat) :
    p.candidates now (tried ++ [i]) = (p.candidates now tried).filter (· ≠ i) := by
  have havail : p.availableIndices now (tried ++ [i]) =
      (p.availableIndices now tried).filter (· ≠ i) := by
    unfold Pool.availableIndices
    rw [List.filter_filter]
    refine List.filter_congr (fun j _ => ?_)
    by_cases hj : j = i <;> simp [hj]
  unfold Pool.candidates
  rw [havail]
  cases p.strategy
  case weighted =>
    unfold weightedOf
    rw [List.filter_filter, List.filter_filter]
    exact List.filter_congr (fun j _ => Bool.and_comm _ _)
  all_goals rfl

/-- Every candidate has its place in the order. -/
theorem failoverOrder_perm {p : Pool} (h : p.Reachable) {now : Nat} {key : Option String}
    {tried : List Nat} {n : Nat} (hn : (p.candidates now tried).length ≤ n) :
    (p.failoverOrder now key n tried).Perm (p.candidates now tried) := by
  induction n generalizing p tried with
  | zero =>
    rw [List.length_eq_zero_iff.mp (Nat.le_zero.mp hn)]
    exact List.Perm.refl _
  | succ n ih =>
    cases hsel : (p.select now key tried).1 with
    | none =>
      rw [failoverOrder_of_none hsel, select_eq_none_iff.mp hsel]
    | some i =>
      have hmem := select_mem (ringOk_of_reachable h) hsel
      have hnodup := p.nodup_candidates now tried
      have hreach : (p.select now key tried).2.Reachable :=
        System.Reachable.step (M := poolSystem) (a := .select now key tried) h trivial
      have hrest : (p.select now key tried).2.candidates now (tried ++ [i]) =
          (p.candidates now tried).erase i := by
        rw [(p.selectFrame_select now key tried).candidates, candidates_concat,
          hnodup.erase_eq_filter]
        exact List.filter_congr (fun j _ => by by_cases hj : j = i <;> simp [hj])
      have hlen : ((p.select now key tried).2.candidates now (tried ++ [i])).length ≤ n := by
        rw [hrest, List.length_erase_of_mem hmem]
        omega
      rw [failoverOrder_of_some hsel]
      have hperm := ih hreach hlen
      rw [hrest] at hperm
      exact (hperm.cons i).trans (List.perm_cons_erase hmem).symm

end Pool

end Echofront
