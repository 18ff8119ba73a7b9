import Mathlib.Data.List.Induction
import Mathlib.Tactic.Common

/-!
# Runs of a deterministic system

A `System` is a state, a set of actions and a step function, with a guard that
says which actions a state accepts.  What is nondeterministic about the modelled
program (the clock, the environment, the caller) sits in the action, so a run is
a list of actions and its last state is a fold.

There are four groups of rules.

* Invariants: `Valid.invariant` and `Reachable.invariant` package the induction
  over a run once.
* Positions: a statement about two moments of one run is a statement about a
  split `before ++ action :: after` of its action list.
  `exec_append`, `valid_append_iff` and `preserved` are the rules for splits.
* Histories: `Always.history` is the induction that keeps the whole history in
  sight, `events` reads the events of a kind off a run, and `last` is the last of
  them.
* Timed runs: `Nondecreasing time` says that the times of the timed actions of
  the list do not go back.
-/

namespace Echofront.Lib

universe u v

/-- A deterministic transition system with a guard. -/
structure System (σ : Type u) (α : Type v) where
  /-- The states a run may start from. -/
  init : σ → Prop
  /-- Whether a state accepts an action. -/
  ok : σ → α → Prop
  step : σ → α → σ

namespace System

variable {σ : Type u} {α : Type v} (M : System σ α)

/-- The state after a list of actions. -/
def exec (s : σ) (as : List α) : σ := as.foldl M.step s

@[simp] theorem exec_nil (s : σ) : M.exec s [] = s := rfl

@[simp] theorem exec_cons (s : σ) (a : α) (as : List α) :
    M.exec s (a :: as) = M.exec (M.step s a) as := rfl

theorem exec_append (s : σ) (as bs : List α) :
    M.exec s (as ++ bs) = M.exec (M.exec s as) bs :=
  List.foldl_append

/-- `P` holds of every action of the list at the state it is taken in. -/
def Always (P : σ → α → Prop) : σ → List α → Prop
  | _, [] => True
  | s, a :: as => P s a ∧ Always P (M.step s a) as

@[simp] theorem always_nil (P : σ → α → Prop) (s : σ) : M.Always P s [] := trivial

@[simp] theorem always_cons (P : σ → α → Prop) (s : σ) (a : α) (as : List α) :
    M.Always P s (a :: as) ↔ P s a ∧ M.Always P (M.step s a) as := Iff.rfl

theorem always_append_iff (P : σ → α → Prop) (s : σ) (as bs : List α) :
    M.Always P s (as ++ bs) ↔ M.Always P s as ∧ M.Always P (M.exec s as) bs := by
  induction as generalizing s with
  | nil => simp
  | cons a as ih => simp [ih, and_assoc]

theorem always_concat_iff (P : σ → α → Prop) (s : σ) (as : List α) (a : α) :
    M.Always P s (as ++ [a]) ↔ M.Always P s as ∧ P (M.exec s as) a := by
  simp [always_append_iff]

instance (P : σ → α → Prop) [h : ∀ s a, Decidable (P s a)] :
    ∀ s as, Decidable (M.Always P s as)
  | _, [] => isTrue trivial
  | s, a :: as =>
    have := instDecidableAlways P (M.step s a) as
    inferInstanceAs (Decidable (P s a ∧ M.Always P (M.step s a) as))

/-- Every action of the list is accepted where it is taken. -/
def Valid (s : σ) (as : List α) : Prop := M.Always M.ok s as

@[simp] theorem valid_nil (s : σ) : M.Valid s [] := trivial

@[simp] theorem valid_cons (s : σ) (a : α) (as : List α) :
    M.Valid s (a :: as) ↔ M.ok s a ∧ M.Valid (M.step s a) as := Iff.rfl

theorem valid_append_iff (s : σ) (as bs : List α) :
    M.Valid s (as ++ bs) ↔ M.Valid s as ∧ M.Valid (M.exec s as) bs :=
  M.always_append_iff M.ok s as bs

/-- A state that some run ends in. -/
def Reachable (s : σ) : Prop :=
  ∃ s₀ as, M.init s₀ ∧ M.Valid s₀ as ∧ M.exec s₀ as = s

variable {M}

/-! ## Invariants -/

/-- What one accepted step keeps, a run keeps. -/
theorem Valid.invariant {I : σ → Prop}
    (hstep : ∀ s a, I s → M.ok s a → I (M.step s a)) {s : σ} {as : List α}
    (hs : I s) (h : M.Valid s as) : I (M.exec s as) := by
  induction as generalizing s with
  | nil => exact hs
  | cons a as ih => exact ih (hstep s a hs h.1) h.2

/-- An invariant holds in every reachable state. -/
theorem Reachable.invariant {I : σ → Prop} (hinit : ∀ s, M.init s → I s)
    (hstep : ∀ s a, I s → M.ok s a → I (M.step s a)) {s : σ}
    (h : M.Reachable s) : I s := by
  obtain ⟨s₀, as, h₀, hv, rfl⟩ := h
  exact hv.invariant hstep (hinit s₀ h₀)

/-- A run from a reachable state ends in a reachable state. -/
theorem Reachable.exec {s : σ} {as : List α} (h : M.Reachable s)
    (hv : M.Valid s as) : M.Reachable (M.exec s as) := by
  obtain ⟨s₀, bs, h₀, hbs, rfl⟩ := h
  refine ⟨s₀, bs ++ as, h₀, ?_, exec_append M s₀ bs as⟩
  exact (valid_append_iff M s₀ bs as).mpr ⟨hbs, hv⟩

theorem Reachable.step {s : σ} {a : α} (h : M.Reachable s) (ha : M.ok s a) :
    M.Reachable (M.step s a) := by
  have hv : M.Valid s [a] := ⟨ha, trivial⟩
  exact h.exec hv

/-! ## Positions -/

/-- The prefix of a valid run is valid. -/
theorem Valid.left {s : σ} {as bs : List α} (h : M.Valid s (as ++ bs)) :
    M.Valid s as :=
  ((valid_append_iff M s as bs).mp h).1

theorem Valid.right {s : σ} {as bs : List α} (h : M.Valid s (as ++ bs)) :
    M.Valid (M.exec s as) bs :=
  ((valid_append_iff M s as bs).mp h).2

/-- A property that every action of a segment keeps is carried over the
segment.  `Q` is what is known of the actions of the segment. -/
theorem preserved {P : σ → Prop} {Q : α → Prop}
    (hstep : ∀ s a, P s → M.ok s a → Q a → P (M.step s a)) {s : σ}
    {as : List α} (hs : P s) (hv : M.Valid s as) (hq : ∀ a ∈ as, Q a) :
    P (M.exec s as) := by
  induction as generalizing s with
  | nil => exact hs
  | cons a as ih =>
    have ha : Q a := hq a (by simp)
    exact ih (hstep s a hs hv.1 ha) hv.2 (fun b hb => hq b (by simp [hb]))

/-! ## History -/

/-- A property of the history of a run and its state, by induction on the last
action.  `P` is what is known of the actions of the run. -/
theorem Always.history {P : σ → α → Prop} {I : List α → σ → Prop} {s : σ}
    (hnil : I [] s)
    (hstep : ∀ as a, M.Always P s as → P (M.exec s as) a → I as (M.exec s as) →
      I (as ++ [a]) (M.step (M.exec s as) a))
    {as : List α} (h : M.Always P s as) : I as (M.exec s as) := by
  induction as using List.reverseRecOn with
  | nil => exact hnil
  | append_singleton as a ih =>
    obtain ⟨has, ha⟩ := (always_concat_iff M P s as a).mp h
    rw [exec_append]
    exact hstep as a has ha (ih has)

/-- Two properties that hold along a run hold together. -/
theorem Always.and {P Q : σ → α → Prop} {s : σ} {as : List α} (hp : M.Always P s as)
    (hq : M.Always Q s as) : M.Always (fun s a => P s a ∧ Q s a) s as := by
  induction as generalizing s with
  | nil => trivial
  | cons a as ih => exact ⟨⟨hp.1, hq.1⟩, ih hp.2 hq.2⟩

theorem Always.mono {P Q : σ → α → Prop} (h : ∀ s a, P s a → Q s a) {s : σ}
    {as : List α} (hp : M.Always P s as) : M.Always Q s as := by
  induction as generalizing s with
  | nil => trivial
  | cons a as ih => exact ⟨h s a hp.1, ih hp.2⟩

/-- Two properties that agree on what the reachable states accept hold along the same
runs. -/
theorem Reachable.always_congr {P Q : σ → α → Prop}
    (h : ∀ s a, M.Reachable s → M.ok s a → (P s a ↔ Q s a)) {s : σ} {as : List α}
    (hs : M.Reachable s) (hv : M.Valid s as) : M.Always P s as ↔ M.Always Q s as := by
  induction as generalizing s with
  | nil => exact Iff.rfl
  | cons a as ih => exact and_congr (h s a hs hv.1) (ih (hs.step hv.1) hv.2)

theorem Always.of_forall {Q : α → Prop} (s : σ) {as : List α} (h : ∀ a ∈ as, Q a) :
    M.Always (fun _ a => Q a) s as := by
  induction as generalizing s with
  | nil => trivial
  | cons a as ih => exact ⟨h a (by simp), ih _ (fun b hb => h b (by simp [hb]))⟩

variable (M) in
/-- The values that `E` reads off the actions of a run, each at the state it is
taken in. -/
def events {β : Type*} (E : σ → α → Option β) : σ → List α → List β
  | _, [] => []
  | s, a :: as => (E s a).toList ++ events E (M.step s a) as

theorem events_append {β : Type*} (E : σ → α → Option β) (s : σ) (as bs : List α) :
    M.events E s (as ++ bs) = M.events E s as ++ M.events E (M.exec s as) bs := by
  induction as generalizing s with
  | nil => rfl
  | cons a as ih => simp [events, ih]

theorem events_concat {β : Type*} (E : σ → α → Option β) (s : σ) (as : List α) (a : α) :
    M.events E s (as ++ [a]) = M.events E s as ++ (E (M.exec s as) a).toList := by
  simp [events_append, events]

/-- What holds of the entries of a list, each with its position, and of one more holds
of the longer list. -/
theorem forall_getElem?_concat {β : Type*} {P : Nat → β → Prop} {xs : List β} {x : β}
    (h : ∀ (k : Nat) (a : β), xs[k]? = some a → P k a) (hx : P xs.length x) :
    ∀ (k : Nat) (a : β), (xs ++ [x])[k]? = some a → P k a := by
  intro k a ha
  rcases Nat.lt_trichotomy k xs.length with hlt | rfl | hgt
  · rw [List.getElem?_append_left hlt] at ha
    exact h k a ha
  · rw [List.getElem?_concat_length] at ha
    exact Option.some.inj ha ▸ hx
  · rw [List.getElem?_eq_none (by rw [List.length_append]; exact hgt)] at ha
    simp at ha

variable (M) in
/-- The last event of a run. -/
def last {β : Type*} (E : σ → α → Option β) (s : σ) (as : List α) : Option β :=
  (M.events E s as).getLast?

theorem last_concat {β : Type*} (E : σ → α → Option β) (s : σ) (as : List α) (a : α) :
    M.last E s (as ++ [a]) = (E (M.exec s as) a).or (M.last E s as) := by
  simp only [last, events_append]
  cases he : E (M.exec s as) a <;> simp [events, he]

/-! ## Simulation -/

/-- A relation that holds at the start and that every common action keeps
holds after every run of the two systems over the same actions. -/
theorem simulation {τ : Type*} {N : System τ α} {R : σ → τ → Prop}
    (hstep : ∀ s t a, R s t → R (M.step s a) (N.step t a)) {s : σ} {t : τ}
    (h : R s t) (as : List α) : R (M.exec s as) (N.exec t as) := by
  induction as generalizing s t with
  | nil => exact h
  | cons a as ih => exact ih (hstep s t a h)

end System

/-! ## Timed runs -/

/-- The times of the timed actions do not go back. -/
def Nondecreasing {α : Type v} (time : α → Option Nat) (as : List α) : Prop :=
  (as.filterMap time).Pairwise (· ≤ ·)

instance {α : Type v} (time : α → Option Nat) (as : List α) :
    Decidable (Nondecreasing time as) :=
  inferInstanceAs (Decidable ((as.filterMap time).Pairwise (· ≤ ·)))

theorem Nondecreasing.left {α : Type v} {time : α → Option Nat}
    {as bs : List α} (h : Nondecreasing time (as ++ bs)) :
    Nondecreasing time as := by
  unfold Nondecreasing at h ⊢
  rw [List.filterMap_append, List.pairwise_append] at h
  exact h.1

/-- In a timed run a later action has a later time. -/
theorem Nondecreasing.le {α : Type v} {time : α → Option Nat}
    {as bs : List α} (h : Nondecreasing time (as ++ bs)) {a b : α} {t t' : Nat}
    (ha : a ∈ as) (hat : time a = some t) (hb : b ∈ bs)
    (hbt : time b = some t') : t ≤ t' := by
  unfold Nondecreasing at h
  rw [List.filterMap_append, List.pairwise_append] at h
  exact h.2.2 t (List.mem_filterMap.mpr ⟨a, ha, hat⟩) t'
    (List.mem_filterMap.mpr ⟨b, hb, hbt⟩)

end Echofront.Lib
