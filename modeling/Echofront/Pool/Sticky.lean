import Echofront.Pool.Run
import Echofront.HashRing.Remap

/-!
# Sticky selection

Under the consistent hash a selection with a key depends on the backends that are
available and on nothing else of the history.

* `vnodes_of_reachable` and `ringOk_of_reachable` are the invariants of the cached
  ring, and `select_eq_lookup` is what they give: the cached ring answers as a
  fresh one does.
* `name_backend_exec`: a backend keeps its index and its name, so equal lists of
  available indices give equal member lists at any two moments of a run.
* `select_hash_sticky` puts these together with the minimal remapping of
  `Echofront.HashRing.Remap`.
-/

namespace Echofront

open Lib

namespace Pool

/-! ## The cached ring against a fresh one -/

/-- The ring has 160 virtual nodes for each member, from the start and for ever. -/
theorem vnodes_of_reachable {p : Pool} (h : p.Reachable) : p.ring.vnodes = 160 := by
  refine System.Reachable.invariant (M := poolSystem) (I := fun p => p.ring.vnodes = 160)
    ?_ ?_ h
  · intro p₀ h₀
    obtain ⟨name, strategy, health, rfl⟩ := h₀
    rfl
  · intro p op hp _
    cases op with
    | select now key exclude =>
      rcases p.select_ring_cases now key exclude with ⟨hring, _⟩ | ⟨hring, _⟩
      · show (p.select now key exclude).2.ring.vnodes = 160
        rw [hring]
        exact hp
      · show (p.select now key exclude).2.ring.vnodes = 160
        rw [hring]
        exact hp
    | _ => exact hp

/-- A selection with a key answers the lookup in a ring that is rebuilt from
exactly the available backends. -/
theorem select_eq_lookup {p : Pool} (h : p.Reachable) (hs : p.strategy = .consistentHash)
    (now : Nat) (key : String) (exclude : List Nat) :
    (p.select now (some key) exclude).1 =
      ((ConsistentHashRing.new 160).rebuild
        (p.ringMembers (p.availableIndices now exclude))).lookup key := by
  have hfresh : (ConsistentHashRing.new 160).rebuild
      (p.ringMembers (p.availableIndices now exclude)) =
        p.freshRing (p.availableIndices now exclude) := by
    unfold freshRing ConsistentHashRing.rebuild
    rw [vnodes_of_reachable h]
    rfl
  rw [hfresh]
  by_cases hne : p.availableIndices now exclude = []
  · rw [select_of_unavailable _ hne, hne]
    rfl
  · have hok := ringOk_of_reachable h
    obtain ⟨i, _, hl⟩ := freshRing_lookup_mem hok hne key
    rw [select_of_available _ hne]
    simp only [hs, selectHash_some hok hne, hl, Option.getD_some]

/-! ## The members of two moments of a run -/

/-- A backend keeps its name over a run. -/
theorem name_backend_exec {p : Pool} {i : Nat} (hi : i < p.backends.length)
    (ops : List Op) : ((poolSystem.exec p ops).backend i).name = (p.backend i).name := by
  induction ops generalizing p with
  | nil => rfl
  | cons op ops ih =>
    have hb := getElem?_apply (getElem?_eq_backend hi) op
    have hname : ((p.apply op).backend i).name = (p.backend i).name := by
      rw [backend_eq_of_getElem? hb]
      exact (p.effect_fixed op i _).1
    exact (ih (lt_length_of_getElem? hb)).trans hname

theorem ringMembers_exec {p : Pool} (ops : List Op) {is : List Nat}
    (h : ∀ i ∈ is, i < p.backends.length) :
    (poolSystem.exec p ops).ringMembers is = p.ringMembers is := by
  unfold ringMembers
  exact List.map_congr_left (fun i hi => by rw [name_backend_exec (h i hi)])

/-- The members of some of the available backends are a filter of the members of
all of them. -/
theorem ringMembers_filter (p : Pool) (is : List Nat) (keep : Nat → Bool) :
    p.ringMembers (is.filter keep) = (p.ringMembers is).filter (fun m => keep m.1) := by
  simp [ringMembers, List.filter_map, Function.comp_def]

/-- Two ascending lists with one of them inside the other: the smaller one is a
filter of the larger one. -/
theorem eq_filter_of_subset {xs ys : List Nat} (hx : xs.Pairwise (· < ·))
    (hy : ys.Pairwise (· < ·)) (h : ∀ i ∈ ys, i ∈ xs) :
    ys = xs.filter (fun i => decide (i ∈ ys)) := by
  have hperm : ys.Perm (xs.filter (fun i => decide (i ∈ ys))) := by
    refine (List.perm_ext_iff_of_nodup ?_ ?_).mpr (fun i => ?_)
    · exact hy.imp (fun hlt => Nat.ne_of_lt hlt)
    · exact (hx.imp (fun hlt => Nat.ne_of_lt hlt)).filter _
    · rw [List.mem_filter, decide_eq_true_eq]
      exact ⟨fun hi => ⟨h i hi, hi⟩, fun hi => hi.2⟩
  exact hperm.eq_of_pairwise (fun a b _ _ hab hba => absurd hab (Nat.lt_asymm hba)) hy
    (hx.filter _)

/-! ## Sticky selection -/

/-- A choice that is still available stays the choice when the set of available
backends shrinks. -/
theorem select_exec_of_subset {p : Pool} (h : p.Reachable)
    (hs : p.strategy = .consistentHash) {ops : List Op} (hv : poolSystem.Valid p ops)
    (hs' : (poolSystem.exec p ops).strategy = .consistentHash) {now now' : Nat}
    {key : String} {exclude exclude' : List Nat} {i : Nat}
    (hi : (p.select now (some key) exclude).1 = some i)
    (hsub : ∀ j ∈ (poolSystem.exec p ops).availableIndices now' exclude',
      j ∈ p.availableIndices now exclude)
    (hmem : i ∈ (poolSystem.exec p ops).availableIndices now' exclude') :
    ((poolSystem.exec p ops).select now' (some key) exclude').1 = some i := by
  have hq : (poolSystem.exec p ops).Reachable := System.Reachable.exec h hv
  rw [select_eq_lookup h hs] at hi
  rw [select_eq_lookup hq hs']
  have hlt : ∀ j ∈ (poolSystem.exec p ops).availableIndices now' exclude',
      j < p.backends.length := fun j hj => (mem_availableIndices.mp (hsub j hj)).1
  rw [ringMembers_exec ops hlt]
  have heq := eq_filter_of_subset (p.pairwise_availableIndices now exclude)
    ((poolSystem.exec p ops).pairwise_availableIndices now' exclude') hsub
  rw [heq, ringMembers_filter]
  refine ConsistentHashRing.lookup_rebuild_filter hi (fun m _ hm => ?_)
  rw [hm]
  exact decide_eq_true hmem

/-- Sticky selection does not depend on history.  In every reachable pool a
selection with a key answers the lookup in a ring rebuilt from exactly the backends
that are available and not excluded.  Whatever operations lie between two
selections of a key, they agree when the available sets are the same, and a choice
that is still available stays the choice when the set shrinks. -/
theorem select_hash_sticky {p : Pool} (h : p.Reachable)
    (hs : p.strategy = .consistentHash) (now : Nat) (key : String) (exclude : List Nat) :
    (p.select now (some key) exclude).1 =
      ((ConsistentHashRing.new 160).rebuild
        (p.ringMembers (p.availableIndices now exclude))).lookup key ∧
    ∀ (ops : List Op) (now' : Nat) (exclude' : List Nat), poolSystem.Valid p ops →
      (poolSystem.exec p ops).strategy = .consistentHash →
      ((∀ j, j ∈ (poolSystem.exec p ops).availableIndices now' exclude' ↔
          j ∈ p.availableIndices now exclude) →
        ((poolSystem.exec p ops).select now' (some key) exclude').1 =
          (p.select now (some key) exclude).1) ∧
      ∀ i, (p.select now (some key) exclude).1 = some i →
        (∀ j ∈ (poolSystem.exec p ops).availableIndices now' exclude',
          j ∈ p.availableIndices now exclude) →
        i ∈ (poolSystem.exec p ops).availableIndices now' exclude' →
        ((poolSystem.exec p ops).select now' (some key) exclude').1 = some i := by
  refine ⟨select_eq_lookup h hs now key exclude, ?_⟩
  intro ops now' exclude' hv hs'
  refine ⟨fun hsame => ?_, fun i hi hsub hmem =>
    select_exec_of_subset h hs hv hs' hi hsub hmem⟩
  cases hi : (p.select now (some key) exclude).1 with
  | some i =>
    have hmem : i ∈ p.availableIndices now exclude := by
      have hc := select_mem (ringOk_of_reachable h) hi
      simpa only [candidates, hs] using hc
    exact select_exec_of_subset h hs hv hs' hi (fun j hj => (hsame j).mp hj)
      ((hsame i).mpr hmem)
  | none =>
    rw [select_eq_none_iff] at hi ⊢
    simp only [candidates, hs, hs'] at hi ⊢
    rw [List.eq_nil_iff_forall_not_mem] at hi ⊢
    exact fun j hj => hi j ((hsame j).mp hj)

/-- A failover and a change of strategy lie between two selections of one key, and
both choose the same backend. -/
theorem select_hash_sticky_two :
    let p := twoBackends.apply (.setStrategy .consistentHash)
    let ops : List Op := [.select 5 (some "user-1") [0], .setStrategy .roundRobin,
      .select 6 none [], .setStrategy .consistentHash]
    ((poolSystem.exec p ops).select 7 (some "user-1") []).1 =
      (p.select 5 (some "user-1") []).1 := by
  intro p ops
  have hok : poolSystem.ok twoBackends (.setStrategy .consistentHash) := trivial
  have hp : p.Reachable := System.Reachable.step reachable_twoBackends hok
  have hv : poolSystem.Valid p ops := ⟨trivial, trivial, trivial, trivial, trivial⟩
  have hsame : (poolSystem.exec p ops).availableIndices 7 [] = p.availableIndices 5 [] := by
    decide
  refine ((select_hash_sticky hp rfl 5 "user-1" []).2 ops 7 [] hv rfl).1 (fun j => ?_)
  rw [hsame]

end Pool

end Echofront
