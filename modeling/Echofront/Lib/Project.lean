import Echofront.Lib.Run

/-!
# Runs of a component

A system may hold a component that is a system of its own.  `calls f` reads off a
run of the whole the actions that the component takes in it, where `f s a` are those
of one action.  `Valid.project` is the rule: what one action does to the component,
as a run of it, a run of the whole does.

A total of a run is the sum of a weight over its actions.  `total_calls` reads the
total of the component off the totals of the actions of the whole, and
`total_le_of_potential` bounds a total by a potential: every action pays its weight
out of it.
-/

namespace Echofront.Lib

universe u v

namespace System

variable {σ : Type u} {α : Type v} (M : System σ α)

/-! ## The actions of a component -/

section Component

variable {τ : Type*} {β : Type*} {N : System τ β}

/-- The actions that a component takes along a run. -/
def calls (f : σ → α → List β) : σ → List α → List β
  | _, [] => []
  | s, a :: as => f s a ++ calls f (M.step s a) as

@[simp] theorem calls_nil (f : σ → α → List β) (s : σ) : M.calls f s [] = [] := rfl

@[simp] theorem calls_cons (f : σ → α → List β) (s : σ) (a : α) (as : List α) :
    M.calls f s (a :: as) = f s a ++ M.calls f (M.step s a) as := rfl

variable {M}

/-- What holds of the actions that one action makes the component take holds of
those of a run. -/
theorem Always.forall_mem_calls {f : σ → α → List β} {P : σ → α → Prop} {Q : β → Prop}
    (h : ∀ s a, P s a → ∀ b ∈ f s a, Q b) {s : σ} {as : List α} (hp : M.Always P s as) :
    ∀ b ∈ M.calls f s as, Q b := by
  induction as generalizing s with
  | nil => simp
  | cons a as ih => exact List.forall_mem_append.mpr ⟨h s a hp.1, ih hp.2⟩

/-- A run of the whole is a run of the component.  `R` ties the two states together,
and `Q` is what is known of the actions of the run. -/
theorem Valid.project {f : σ → α → List β} {R : σ → τ → Prop} {Q : α → Prop}
    (hstep : ∀ s t a, R s t → M.ok s a → Q a →
      N.Valid t (f s a) ∧ R (M.step s a) (N.exec t (f s a)))
    {s : σ} {t : τ} {as : List α} (h : R s t) (hv : M.Valid s as) (hq : ∀ a ∈ as, Q a) :
    N.Valid t (M.calls f s as) ∧ R (M.exec s as) (N.exec t (M.calls f s as)) := by
  induction as generalizing s t with
  | nil => exact ⟨trivial, h⟩
  | cons a as ih =>
    obtain ⟨hva, hra⟩ := hstep s t a h hv.1 (hq a (by simp))
    obtain ⟨hvas, hras⟩ := ih hra hv.2 (fun b hb => hq b (by simp [hb]))
    rw [calls_cons]
    refine ⟨(valid_append_iff N t _ _).mpr ⟨hva, hvas⟩, ?_⟩
    rw [exec_append]
    exact hras

/-- A component that shows what the whole shows of it, step by step, shows it over a
run. -/
theorem Valid.project_events {ω : Type*} {f : σ → α → List β} {R : σ → τ → Prop}
    {E : σ → α → Option ω} {F : τ → β → Option ω}
    (hstep : ∀ s t a, R s t → M.ok s a →
      R (M.step s a) (N.exec t (f s a)) ∧ N.events F t (f s a) = (E s a).toList)
    {s : σ} {t : τ} {as : List α} (h : R s t) (hv : M.Valid s as) :
    R (M.exec s as) (N.exec t (M.calls f s as)) ∧
      N.events F t (M.calls f s as) = M.events E s as := by
  induction as generalizing s t with
  | nil => exact ⟨h, rfl⟩
  | cons a as ih =>
    obtain ⟨hra, hea⟩ := hstep s t a h hv.1
    obtain ⟨hras, heas⟩ := ih hra hv.2
    rw [calls_cons, exec_append, events_append, hea, heas]
    exact ⟨hras, rfl⟩

end Component

/-! ## Totals -/

/-- The sum of a weight over the actions of a run, each at the state it is taken
in. -/
def total (w : σ → α → Nat) : σ → List α → Nat
  | _, [] => 0
  | s, a :: as => w s a + total w (M.step s a) as

@[simp] theorem total_nil (w : σ → α → Nat) (s : σ) : M.total w s [] = 0 := rfl

@[simp] theorem total_cons (w : σ → α → Nat) (s : σ) (a : α) (as : List α) :
    M.total w s (a :: as) = w s a + M.total w (M.step s a) as := rfl

theorem total_append (w : σ → α → Nat) (s : σ) (as bs : List α) :
    M.total w s (as ++ bs) = M.total w s as + M.total w (M.exec s as) bs := by
  induction as generalizing s with
  | nil => simp
  | cons a as ih => simp [ih, Nat.add_assoc]

@[simp] theorem total_zero (s : σ) (as : List α) : M.total (fun _ _ => 0) s as = 0 := by
  induction as generalizing s with
  | nil => rfl
  | cons a as ih => rw [total_cons, ih]

theorem total_mul (k : Nat) (w : σ → α → Nat) (s : σ) (as : List α) :
    M.total (fun s a => k * w s a) s as = k * M.total w s as := by
  induction as generalizing s with
  | nil => rfl
  | cons a as ih => simp [ih, Nat.mul_add]

/-- A weight that no action of a run has. -/
theorem Valid.total_eq_zero {I : σ → Prop} {Q : α → Prop} {w : σ → α → Nat}
    (hstep : ∀ s a, I s → M.ok s a → Q a → w s a = 0 ∧ I (M.step s a)) {s : σ}
    {as : List α} (hs : I s) (hv : M.Valid s as) (hq : ∀ a ∈ as, Q a) :
    M.total w s as = 0 := by
  induction as generalizing s with
  | nil => rfl
  | cons a as ih =>
    obtain ⟨hw, hi⟩ := hstep s a hs hv.1 (hq a (by simp))
    rw [total_cons, hw, ih hi hv.2 (fun b hb => hq b (by simp [hb]))]

/-- The total of a component is at least the total of the whole, if every action of
the whole takes no more than its part. -/
theorem Valid.total_le_calls {τ : Type*} {β : Type*} {N : System τ β}
    {f : σ → α → List β} {R : σ → τ → Prop} {Q : α → Prop} {w : σ → α → Nat}
    {v : τ → β → Nat}
    (hstep : ∀ s t a, R s t → M.ok s a → Q a →
      R (M.step s a) (N.exec t (f s a)) ∧ w s a ≤ N.total v t (f s a))
    {s : σ} {t : τ} {as : List α} (h : R s t) (hv : M.Valid s as) (hq : ∀ a ∈ as, Q a) :
    M.total w s as ≤ N.total v t (M.calls f s as) := by
  induction as generalizing s t with
  | nil => exact Nat.le_refl 0
  | cons a as ih =>
    obtain ⟨hra, hwa⟩ := hstep s t a h hv.1 (hq a (by simp))
    have hrest := ih hra hv.2 (fun b hb => hq b (by simp [hb]))
    rw [total_cons, calls_cons, total_append]
    exact Nat.add_le_add hwa hrest

/-- A counter that every action raises by its weight is raised by the total of a run. -/
theorem Valid.counter {I : σ → Prop} {Q : α → Prop} {m : σ → Nat} {w : σ → α → Nat}
    (hstep : ∀ s a, I s → M.ok s a → Q a → m (M.step s a) = m s + w s a ∧ I (M.step s a))
    {s : σ} {as : List α} (hs : I s) (hv : M.Valid s as) (hq : ∀ a ∈ as, Q a) :
    m (M.exec s as) = m s + M.total w s as := by
  induction as generalizing s with
  | nil => rfl
  | cons a as ih =>
    obtain ⟨hm, hi⟩ := hstep s a hs hv.1 (hq a (by simp))
    rw [exec_cons, ih hi hv.2 (fun b hb => hq b (by simp [hb])), hm, total_cons, Nat.add_assoc]

/-- One for an action that turns `f` to `v`. -/
def turns (f : σ → Bool) (v : Bool) (s : σ) (a : α) : Nat :=
  if f s = (!v) ∧ f (M.step s a) = v then 1 else 0

/-- A run that turns `f` to `v` has an action that does. -/
theorem turn_le_total (f : σ → Bool) (v : Bool) (s : σ) (as : List α) :
    (if f s = (!v) ∧ f (M.exec s as) = v then 1 else 0) ≤ M.total (M.turns f v) s as := by
  induction as generalizing s with
  | nil => cases v <;> cases hf : f s <;> simp [hf]
  | cons a as ih =>
    rw [total_cons, exec_cons]
    split_ifs with hall
    · by_cases hturn : f (M.step s a) = v
      · have hone : M.turns f v s a = 1 := if_pos ⟨hall.1, hturn⟩
        omega
      · have hrest := ih (M.step s a)
        rw [if_pos ⟨Bool.eq_not_of_ne hturn, hall.2⟩] at hrest
        omega
    · exact Nat.zero_le _

end System

/-- A timed run without its first action. -/
theorem Nondecreasing.tail {α : Type v} {time : α → Option Nat} {a : α} {as : List α}
    (h : Nondecreasing time (a :: as)) : Nondecreasing time as := by
  unfold Nondecreasing at h ⊢
  cases hta : time a with
  | none => rwa [List.filterMap_cons_none hta] at h
  | some t =>
    rw [List.filterMap_cons_some hta] at h
    exact h.of_cons

/-- The component takes its actions at the time of the action of the whole. -/
theorem Nondecreasing.calls {σ : Type u} {α : Type v} {β : Type*} {M : System σ α}
    {f : σ → α → List β} {time : α → Option Nat} {time' : β → Option Nat}
    (hf : ∀ s a, ∀ b ∈ f s a, ∀ t, time' b = some t → time a = some t) {s : σ}
    {as : List α} (h : Nondecreasing time as) : Nondecreasing time' (M.calls f s as) := by
  -- every time of the component is a time of the whole
  have hmem : ∀ (as : List α) (s : σ), ∀ t ∈ (M.calls f s as).filterMap time',
      t ∈ as.filterMap time := by
    intro as
    induction as with
    | nil => simp
    | cons a as ih =>
      intro s t ht
      rw [System.calls_cons, List.filterMap_append, List.mem_append] at ht
      rcases ht with ht | ht
      · obtain ⟨b, hb, hbt⟩ := List.mem_filterMap.mp ht
        exact List.mem_filterMap.mpr ⟨a, by simp, hf s a b hb t hbt⟩
      · obtain ⟨a', ha', hat⟩ := List.mem_filterMap.mp (ih _ t ht)
        exact List.mem_filterMap.mpr ⟨a', by simp [ha'], hat⟩
  induction as generalizing s with
  | nil => exact List.Pairwise.nil
  | cons a as ih =>
    unfold Nondecreasing
    rw [System.calls_cons, List.filterMap_append, List.pairwise_append]
    refine ⟨?_, ih h.tail, fun t ht t' ht' => ?_⟩
    · refine List.pairwise_of_forall_mem_list (fun t ht t' ht' => ?_)
      obtain ⟨b, hb, hbt⟩ := List.mem_filterMap.mp ht
      obtain ⟨b', hb', hbt'⟩ := List.mem_filterMap.mp ht'
      have heq : some t = some t' := (hf s a b hb t hbt).symm.trans (hf s a b' hb' t' hbt')
      exact Nat.le_of_eq (Option.some.inj heq)
    · obtain ⟨b, hb, hbt⟩ := List.mem_filterMap.mp ht
      have hat := hf s a b hb t hbt
      unfold Nondecreasing at h
      rw [List.filterMap_cons_some hat] at h
      exact List.rel_of_pairwise_cons h (hmem as _ t' ht')

/-- The potential method on timed runs.  `Φ t s` is the potential of the state `s` at
time `t`.  An action pays its weight `w` out of the potential and brings in the credit
`c`; so the total weight of a run within `[t, T]` is at most the potential at its start
and the total credit. -/
theorem System.Valid.total_le_of_potential {σ : Type u} {α : Type v} {M : System σ α}
    (time : α → Option Nat) {T : Nat} {I : σ → Prop} {Φ : Nat → σ → Nat}
    {w c : σ → α → Nat} (hinv : ∀ s a, I s → M.ok s a → I (M.step s a))
    (hstep : ∀ s a t, I s → M.ok s a → (∀ u, time a = some u → t ≤ u ∧ u ≤ T) →
      w s a + Φ ((time a).getD t) (M.step s a) ≤ Φ t s + c s a)
    {s : σ} {t : Nat} {as : List α} (hs : I s) (hv : M.Valid s as)
    (hn : Nondecreasing time as) (ht : ∀ a ∈ as, ∀ u, time a = some u → t ≤ u ∧ u ≤ T) :
    M.total w s as ≤ Φ t s + M.total c s as := by
  induction as generalizing s t with
  | nil => exact Nat.zero_le _
  | cons a as ih =>
    have hpay := hstep s a t hs hv.1 (ht a (by simp))
    -- the times of the rest do not come before the time of `a`
    have hrest : ∀ b ∈ as, ∀ u, time b = some u → (time a).getD t ≤ u ∧ u ≤ T := by
      intro b hb u hu
      refine ⟨?_, (ht b (by simp [hb]) u hu).2⟩
      cases hta : time a with
      | none => exact (ht b (by simp [hb]) u hu).1
      | some v =>
        have hsplit : Nondecreasing time ([a] ++ as) := hn
        exact hsplit.le (List.mem_singleton_self a) hta hb hu
    have hih := ih (hinv s a hs hv.1) hv.2 hn.tail hrest
    rw [System.total_cons, System.total_cons]
    omega

end Echofront.Lib
