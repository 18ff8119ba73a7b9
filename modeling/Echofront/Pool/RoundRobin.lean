import Echofront.Pool.Run
import Echofront.Lib.Cycle

/-!
# The round robin cursor

One cursor serves the round robin strategy and the consistent hash without a key.  It
moves by one for each pick, whatever the set was that it picked from, and wraps at
`usize::MAX`.

* `Advanced` says where the cursor of a round robin pool is after some picks.
* `select_cyclic` is the spec of a pick by the cursor, and `cyclic_exec` that the picks
  of a run with one available set are consecutive picks of that set.
* `roundRobin_cycles` says what follows for any state that the run starts from.
-/

namespace Echofront

open Lib

namespace Pool

/-! ## The cursor -/

/-- A selection moves the cursor by one, or leaves it. -/
theorem rrCursor_select_cases (p : Pool) (now : Nat) (key : Option String)
    (exclude : List Nat) :
    (p.select now key exclude).2.rrCursor = p.rrCursor ∨
      (p.select now key exclude).2.rrCursor = wrappingAdd64 p.rrCursor 1 := by
  by_cases hne : p.availableIndices now exclude = []
  · rw [select_of_unavailable key hne]
    exact Or.inl rfl
  · rw [select_of_available key hne]
    cases p.strategy with
    | roundRobin => exact Or.inr rfl
    | weighted =>
      have hv := visited p (p.pairwise_availableIndices now exclude)
      refine Or.inl ?_
      simp only [selectWeighted]
      split
      · exact hv.cursor
      · exact hv.cursor
    | leastConnections => exact Or.inl rfl
    | consistentHash =>
      cases key with
      | none => exact Or.inr rfl
      | some key =>
        refine Or.inl ?_
        simp only [selectHash]
        split_ifs <;> rfl

theorem rrCursor_lt_of_reachable {p : Pool} (h : p.Reachable) : p.rrCursor < 2 ^ 64 := by
  refine System.Reachable.invariant (M := poolSystem) (I := fun p => p.rrCursor < 2 ^ 64)
    (fun p h₀ => ?_) (fun p op hp _ => ?_) h
  · obtain ⟨name, strategy, health, rfl⟩ := h₀
    exact Nat.two_pow_pos 64
  · cases op with
    | select now key exclude =>
      show (p.select now key exclude).2.rrCursor < 2 ^ 64
      rcases p.rrCursor_select_cases now key exclude with heq | heq
      · exact heq ▸ hp
      · rw [heq]
        exact Nat.mod_lt _ (Nat.two_pow_pos 64)
    | _ => exact hp

/-- The round robin pool `p` is `k` picks ahead of the pool `q`. -/
structure Advanced (q : Pool) (k : Nat) (p : Pool) : Prop where
  strategy : p.strategy = .roundRobin
  cursor : p.rrCursor = wrappingAdd64 q.rrCursor k

variable {p p' q : Pool} {k : Nat}

theorem Advanced.refl (h : p.strategy = .roundRobin) (hlt : p.rrCursor < 2 ^ 64) :
    Advanced p 0 p :=
  ⟨h, (Nat.mod_eq_of_lt hlt).symm⟩

theorem Advanced.trans {r : Pool} {k' : Nat} (h : Advanced r k q) (h' : Advanced q k' p) :
    Advanced r (k + k') p := by
  refine ⟨h'.strategy, ?_⟩
  rw [h'.cursor, h.cursor]
  show ((r.rrCursor + k) % 2 ^ 64 + k') % 2 ^ 64 = _
  rw [Nat.mod_add_mod, Nat.add_assoc]
  rfl

/-- What neither picks nor sets the strategy. -/
theorem Advanced.keep (h : Advanced q k p) (hs : p'.strategy = p.strategy)
    (hc : p'.rrCursor = p.rrCursor) : Advanced q k p' :=
  ⟨hs.trans h.strategy, hc.trans h.cursor⟩

/-- A round robin pool picks the available backend at its cursor. -/
theorem select_roundRobin (h : p.strategy = .roundRobin) (now : Nat) (key : Option String)
    (exclude : List Nat) :
    (p.select now key exclude).1 =
      (p.availableIndices now exclude)[p.rrCursor %
        (p.availableIndices now exclude).length]? := by
  by_cases hne : p.availableIndices now exclude = []
  · rw [select_of_unavailable key hne, hne]
    rfl
  · have hlt : p.rrCursor % (p.availableIndices now exclude).length <
        (p.availableIndices now exclude).length :=
      Nat.mod_lt _ (List.length_pos_iff.mpr hne)
    rw [select_of_available key hne]
    simp [h, selectRoundRobin, List.getD_eq_getElem?_getD, hlt]

/-- A pick moves the cursor by one. -/
theorem Advanced.select (h : Advanced q k p) {now : Nat} {key : Option String}
    {exclude : List Nat} {i : Nat} (hsel : (p.select now key exclude).1 = some i) :
    Advanced q (k + 1) (p.select now key exclude).2 := by
  refine h.trans ⟨(p.selectFrame_select now key exclude).strategy.trans h.strategy, ?_⟩
  by_cases hne : p.availableIndices now exclude = []
  · rw [select_of_unavailable key hne] at hsel
    simp at hsel
  · rw [select_of_available key hne]
    simp only [h.strategy]
    rfl

/-! ## Picks of one available set -/

/-- What a selection picks. -/
def pick (p : Pool) : Op → Option Nat
  | .select now key exclude => (p.select now key exclude).1
  | _ => none

/-- Whether a call is a selection. -/
def isSelect : Op → Bool
  | .select _ _ _ => true
  | _ => false

/-- The selections of a list of calls. -/
def selectsIn (ops : List Op) : Nat := ops.countP isSelect

/-- If the call is a selection, it is one by the cursor, and the backends that it may
pick are the ones in `available`. -/
def KeepsCycle (available : List Nat) (p : Pool) : Op → Prop
  | .select now key exclude =>
    (p.strategy = .roundRobin ∨ p.strategy = .consistentHash ∧ key = none) ∧
      p.availableIndices now exclude = available
  | _ => True

instance (available : List Nat) (p : Pool) (op : Op) :
    Decidable (KeepsCycle available p op) := by
  cases op <;> unfold KeepsCycle <;> infer_instance

/-- A pick by the cursor. -/
theorem select_cyclic {available : List Nat} {now : Nat} {key : Option String}
    {exclude : List Nat} (h : KeepsCycle available p (.select now key exclude))
    (hne : available ≠ []) :
    ∃ i, (p.select now key exclude).1 = some i ∧
      available[p.rrCursor % available.length]? = some i ∧
      (p.select now key exclude).2.rrCursor = wrappingAdd64 p.rrCursor 1 := by
  obtain ⟨hstrategy, hav⟩ := h
  have hlt : p.rrCursor % available.length < available.length :=
    Nat.mod_lt _ (List.length_pos_iff.mpr hne)
  have hpick : (p.selectRoundRobin available).1 = available[p.rrCursor % available.length] := by
    simp [selectRoundRobin, List.getD_eq_getElem?_getD, hlt]
  refine ⟨available[p.rrCursor % available.length], ?_, List.getElem?_eq_getElem hlt, ?_⟩
  · rw [select_of_available key (by rwa [hav]), hav]
    rcases hstrategy with hs | ⟨hs, rfl⟩ <;> simp only [hs, selectHash] <;> rw [hpick]
  · rw [select_of_available key (by rwa [hav]), hav]
    rcases hstrategy with hs | ⟨hs, rfl⟩ <;> simp only [hs, selectHash] <;> rfl

/-- Only a selection moves the cursor. -/
theorem rrCursor_apply {op : Op} (h : isSelect op = false) :
    (p.apply op).rrCursor = p.rrCursor := by
  cases op with
  | select now key exclude => exact absurd h (by simp [isSelect])
  | _ => rfl

/-- The run lemma: the picks are consecutive entries of the available set, from the
position `c` of the cursor on. -/
theorem cyclic_exec {available : List Nat} (hne : available ≠ []) {ops : List Op}
    (h : poolSystem.Always (KeepsCycle available) p ops) {c : Nat}
    (hc : p.rrCursor = c ∨ selectsIn ops = 0) (hle : c + selectsIn ops ≤ 2 ^ 64) :
    (poolSystem.events pick p ops).length = selectsIn ops ∧
      Cyclic available c (poolSystem.events pick p ops) := by
  induction ops generalizing p c with
  | nil => exact ⟨rfl, cyclic_nil _ _⟩
  | cons op ops ih =>
    obtain ⟨hop, hops⟩ := h
    cases hsel : isSelect op with
    | false =>
      have hcount : selectsIn (op :: ops) = selectsIn ops :=
        List.countP_cons_of_neg (by simp [hsel])
      have hpick : pick p op = none := by
        cases op with
        | select now key exclude => exact absurd hsel (by simp [isSelect])
        | _ => rfl
      have hsame : (poolSystem.step p op).rrCursor = p.rrCursor := rrCursor_apply hsel
      rw [hcount] at hc hle ⊢
      rw [← hsame] at hc
      simpa [System.events, hpick] using ih hops hc hle
    | true =>
      have hcount : selectsIn (op :: ops) = selectsIn ops + 1 := List.countP_cons_of_pos hsel
      cases op with
      | select now key exclude =>
        rw [hcount] at hc hle ⊢
        obtain rfl := hc.resolve_right (Nat.succ_ne_zero _)
        obtain ⟨i, hi, hget, hmove⟩ := select_cyclic hop hne
        -- the cursor wraps at the last pick at the earliest
        have hnext : (poolSystem.step p (.select now key exclude)).rrCursor =
            p.rrCursor + 1 ∨ selectsIn ops = 0 := by
          by_cases hlt : p.rrCursor + 1 < 2 ^ 64
          · exact Or.inl (hmove.trans (Nat.mod_eq_of_lt hlt))
          · exact Or.inr (by omega)
        obtain ⟨hlen, hcyc⟩ := ih hops hnext (by omega)
        have hevents : poolSystem.events pick p (.select now key exclude :: ops) =
            i :: poolSystem.events pick (poolSystem.step p (.select now key exclude)) ops := by
          simp [System.events, pick, hi]
        rw [hevents, List.length_cons, hlen]
        exact ⟨rfl, hcyc.cons hget⟩
      | _ => exact absurd hsel (by simp [isSelect])

theorem nodup_of_keepsCycle {available : List Nat} {ops : List Op}
    (h : poolSystem.Always (KeepsCycle available) p ops) (hsome : selectsIn ops ≠ 0) :
    available.Nodup := by
  induction ops generalizing p with
  | nil => exact absurd rfl hsome
  | cons op ops ih =>
    obtain ⟨hop, hops⟩ := h
    cases op with
    | select now key exclude =>
      rw [← hop.2]
      exact p.nodup_availableIndices now exclude
    | _ => exact ih hops hsome

/-- The cursor goes round exactly.  From any pool, over any calls whose selections are
by the cursor, find the same backends available, and do not take the cursor over
`usize::MAX`: every selection picks one of these backends, and the picks are
consecutive entries of the set from the cursor on.  So each is picked as often as the
number of selections divided by the size of the set, rounded down or up; as many
consecutive picks as the size of the set are a permutation of it; and the picks have
that period. -/
theorem roundRobin_cycles {available : List Nat} (hne : available ≠ []) {ops : List Op}
    (h : poolSystem.Always (KeepsCycle available) p ops)
    (hcursor : p.rrCursor + selectsIn ops ≤ 2 ^ 64) :
    let picks := poolSystem.events pick p ops
    picks.length = selectsIn ops ∧
    (∀ j < selectsIn ops,
      picks[j]? = available[(p.rrCursor + j) % available.length]?) ∧
    (∀ i ∈ available, picks.count i = selectsIn ops / available.length ∨
      picks.count i = (selectsIn ops + available.length - 1) / available.length) ∧
    (∀ k, k + available.length ≤ selectsIn ops →
      ((picks.drop k).take available.length).Perm available) ∧
    ∀ j, j + available.length < selectsIn ops →
      picks[j + available.length]? = picks[j]? := by
  intro picks
  obtain ⟨hlen, hcyc⟩ := cyclic_exec hne h (Or.inl rfl) hcursor
  rw [← hlen]
  refine ⟨rfl, hcyc, fun i hi => ?_, fun k hk => hcyc.window hk, fun j hj => hcyc.period hj⟩
  by_cases hsome : selectsIn ops = 0
  · have hnil : poolSystem.events pick p ops = [] :=
      List.length_eq_zero_iff.mp (hlen.trans hsome)
    exact Or.inl (by simp [picks, hnil])
  · exact hcyc.count (nodup_of_keepsCycle h hsome) hi

/-- A cursor left behind at 7, and five selections over two backends, one of them by
the hash without a key. -/
theorem roundRobin_cycles_two :
    (poolSystem.events pick { twoBackends with rrCursor := 7 }
      [.select 0 none [], .begin 1, .select 0 none [], .setStrategy .consistentHash,
        .select 5 none [], .select 5 none [], .select 5 none [2]]).count 1 = 5 / 2 ∨
    (poolSystem.events pick { twoBackends with rrCursor := 7 }
      [.select 0 none [], .begin 1, .select 0 none [], .setStrategy .consistentHash,
        .select 5 none [], .select 5 none [], .select 5 none [2]]).count 1 = (5 + 2 - 1) / 2 :=
  (roundRobin_cycles (show [0, 1] ≠ [] by decide) (by decide) (by decide)).2.2.1 1 (by decide)

end Pool

end Echofront
