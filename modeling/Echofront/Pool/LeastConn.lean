import Echofront.Pool.Quarantine
import Echofront.Lib.Pick
import Mathlib.Data.List.Infix

/-!
# Outstanding calls

The counter of calls in flight goes up in `begin` and down in `end`.  The decrement
saturates, and the increment of the `u32` word does not.  A call is outstanding from its
`begin` to its `end`.

* `inFlight_exec` is the invariant of a run in which no backend is given more ends than
  begins, and none more calls at a time than the word can count: the counter is exact, so
  no decrement saturates.
* `selectLeastConn_leastOf` is the spec of the picker.
* `Assigns` is a part of a run that begins a call on each backend that it selects and
  ends none, and `level_assigns` its induction.

`CountsCalls` is what a run promises of the outstanding calls.  `leastConn_outstanding_iff`
says which runs keep the promise, and `outstanding_wraps` is a run that does not.
-/

namespace Echofront

open Lib

namespace Pool

/-! ## The counter -/

/-- Whether a call begins one on backend `i`. -/
def begins (i : Nat) : Op → Bool
  | .begin idx => idx == i
  | _ => false

/-- Whether a call ends one on backend `i`. -/
def ends (i : Nat) : Op → Bool
  | .endCall idx => idx == i
  | _ => false

theorem begins_of_ne {i : Nat} {op : Op} (h : op.backend ≠ some i) : begins i op = false := by
  cases op with
  | begin idx => simpa [begins, Op.backend] using h
  | _ => rfl

theorem ends_of_ne {i : Nat} {op : Op} (h : op.backend ≠ some i) : ends i op = false := by
  cases op with
  | endCall idx => simpa [ends, Op.backend] using h
  | _ => rfl

/-- The calls of a run on backend `i` that have begun and not ended. -/
def outstanding (ops : List Op) (i : Nat) : Nat := ops.countP (begins i) - ops.countP (ends i)

/-- Every end is the end of a call that has begun before it: at no moment has a backend
been given more ends than begins. -/
def Matched (ops : List Op) : Prop :=
  ∀ pre post, ops = pre ++ post → ∀ i, pre.countP (ends i) ≤ pre.countP (begins i)

theorem Matched.left {pre post : List Op} (h : Matched (pre ++ post)) : Matched pre :=
  fun as bs heq => h as (bs ++ post) (by rw [heq, List.append_assoc])

/-- At no moment has a backend more outstanding calls than a `u32` can count. -/
def RoomForCalls (ops : List Op) : Prop :=
  ∀ pre post, ops = pre ++ post → ∀ i, outstanding pre i ≤ u32Max

theorem RoomForCalls.left {pre post : List Op} (h : RoomForCalls (pre ++ post)) :
    RoomForCalls pre :=
  fun as bs heq => h as (bs ++ post) (by rw [heq, List.append_assoc])

/-- What a call does to the counter of a backend. -/
theorem effect_inFlight (p : Pool) (op : Op) (i : Nat) (b : Backend) :
    (p.effect op i b).inFlight =
      if begins i op then incr32 b.inFlight
      else if ends i op then b.inFlight - 1
      else b.inFlight := by
  have hstep := p.effectStep op i b
  generalize p.effect op i b = b' at hstep ⊢
  cases hstep with
  | polled now => exact Backend.poll_inFlight _ _ _ _
  | begun => simp [begins]
  | ended => simp [begins, ends]
  | other hpoll hne => simp [begins_of_ne hne, ends_of_ne hne]
  | _ => rfl

/-- A backend that a call adds has no call in flight. -/
def AddsIdle (op : Op) : Prop := ∀ b, op = .addBackend b → b.inFlight = 0

/-- The step lemma. -/
theorem inFlight_apply {p : Pool} {op : Op} (hok : p.Accepts op) (hidle : AddsIdle op)
    (i : Nat) :
    ((p.apply op).backend i).inFlight =
      if begins i op then incr32 (p.backend i).inFlight
      else if ends i op then (p.backend i).inFlight - 1
      else (p.backend i).inFlight := by
  by_cases hi : i < p.backends.length
  · rw [backend_apply_of_lt hi]
    exact p.effect_inFlight op i _
  · -- no call begins or ends on a backend that is not there
    have hge := Nat.le_of_not_lt hi
    have hne := backend_ne_of_ge hok hge
    have hzero : ((p.apply op).backend i).inFlight = 0 := by
      by_cases hq : i < (p.apply op).backends.length
      · rcases getElem?_apply_cases (getElem?_eq_backend hq) with ⟨b, hb, _⟩ | ⟨hop, _⟩
        · exact absurd (lt_length_of_getElem? hb) hi
        · exact hidle _ hop
      · rw [backend_of_ge (Nat.le_of_not_lt hq)]
        rfl
    rw [hzero, begins_of_ne hne, ends_of_ne hne, backend_of_ge hge]
    rfl

/-- The run lemma: the counter makes up the difference between begins and ends. -/
theorem inFlight_exec {p₀ : Pool} (h₀ : poolSystem.init p₀) {ops : List Op}
    (hv : poolSystem.Valid p₀ ops) (hidle : ∀ op ∈ ops, AddsIdle op) (hm : Matched ops)
    (hroom : RoomForCalls ops) (i : Nat) :
    ((poolSystem.exec p₀ ops).backend i).inFlight + ops.countP (ends i) =
      ops.countP (begins i) := by
  induction ops using List.reverseRecOn with
  | nil =>
    obtain ⟨name, strategy, health, rfl⟩ := h₀
    rfl
  | append_singleton ops op ih =>
    have hcount := ih hv.left (fun o ho => hidle o (List.mem_append_left _ ho)) hm.left
      hroom.left
    have hle := hm (ops ++ [op]) [] (List.append_nil _).symm i
    have hfits := hroom (ops ++ [op]) [] (List.append_nil _).symm i
    have hstep := inFlight_apply hv.right.1 (hidle op (by simp)) i
    rw [exec_concat, hstep]
    unfold outstanding at hfits
    simp only [List.countP_append, List.countP_singleton] at hle hfits ⊢
    cases hb : begins i op with
    | true =>
      have hends : ends i op = false := by
        cases op with
        | begin idx => rfl
        | _ => exact absurd hb (by simp [begins])
      simp only [hb, hends, if_true, Bool.false_eq_true, if_false] at hle hfits ⊢
      -- the call is one of those that the word can count
      rw [incr32_eq (by omega)]
      omega
    | false =>
      cases he : ends i op with
      | true =>
        -- this end has a begin before it, so the counter is not zero
        simp only [hb, he, if_true, Bool.false_eq_true, if_false] at hle ⊢
        omega
      | false =>
        simp only [Bool.false_eq_true, if_false]
        omega

/-- The counter of a backend is the number of its outstanding calls. -/
theorem inFlight_eq_outstanding {p₀ : Pool} (h₀ : poolSystem.init p₀) {ops : List Op}
    (hv : poolSystem.Valid p₀ ops) (hidle : ∀ op ∈ ops, AddsIdle op) (hm : Matched ops)
    (hroom : RoomForCalls ops) (i : Nat) :
    ((poolSystem.exec p₀ ops).backend i).inFlight = outstanding ops i := by
  have hcount := inFlight_exec h₀ hv hidle hm hroom i
  unfold outstanding
  omega

/-- The counter never passes the maximum of its word. -/
theorem inFlight_le {p₀ : Pool} (h₀ : poolSystem.init p₀) {ops : List Op}
    (hv : poolSystem.Valid p₀ ops) (hidle : ∀ op ∈ ops, AddsIdle op) (i : Nat) :
    ((poolSystem.exec p₀ ops).backend i).inFlight ≤ u32Max := by
  induction ops using List.reverseRecOn with
  | nil =>
    obtain ⟨name, strategy, health, rfl⟩ := h₀
    exact Nat.zero_le _
  | append_singleton ops op ih =>
    have hle := ih hv.left (fun o ho => hidle o (List.mem_append_left _ ho))
    rw [exec_concat, inFlight_apply hv.right.1 (hidle op (by simp)) i]
    split_ifs
    · exact incr32_le_max _
    · omega
    · exact hle

/-! ## The picker -/

/-- The picker of the least connections. -/
theorem selectLeastConn_leastOf (p : Pool) {available : List Nat} (hne : available ≠ [])
    (hlt : available.Pairwise (· < ·)) :
    LeastOf (fun i => (p.backend i).inFlight) available (p.selectLeastConn available) := by
  cases available with
  | nil => exact absurd rfl hne
  | cons a is =>
    have hscan : p.selectLeastConn (a :: is) = is.foldl
        (keep fun best i => (p.backend i).inFlight < (p.backend best).inFlight) a := by
      -- the scan starts from the first index and visits it again
      simp only [selectLeastConn, List.headD_cons, List.foldl_cons, lt_irrefl, if_false]
      rfl
    rw [hscan]
    exact (picked_foldl (replaces_lt _) a is).leastOf hlt

/-- A selection by least connections, against the counters of the pool. -/
theorem select_leastConn {p : Pool} (hs : p.strategy = .leastConnections) (now : Nat)
    (key : Option String) (exclude : List Nat) :
    ((p.select now key exclude).1 = none ↔ p.availableIndices now exclude = []) ∧
    ∀ i, (p.select now key exclude).1 = some i ↔
      LeastOf (fun i => (p.backend i).inFlight) (p.availableIndices now exclude) i := by
  by_cases hne : p.availableIndices now exclude = []
  · rw [select_of_unavailable key hne, hne]
    exact ⟨by simp, fun i => ⟨fun h => by simp at h, fun h => by simpa using h.1⟩⟩
  · have hleast := p.selectLeastConn_leastOf hne (p.pairwise_availableIndices now exclude)
    rw [select_of_available key hne]
    simp only [hs, Option.some.injEq, reduceCtorEq, hne, iff_self, true_and]
    refine fun i => ⟨fun h => h ▸ hleast, fun h => hleast.unique h⟩

/-! ## Many calls begun -/

/-- A part of a run that keeps assigning calls to the backends in `available`: it begins
a call on each backend that it selects by least connections from these, and it neither
begins nor ends any other. -/
inductive Assigns (available : List Nat) : Pool → List Op → Prop
  | nil (p : Pool) : Assigns available p []
  | assign {p : Pool} {now : Nat} {key : Option String} {exclude : List Nat} {i : Nat}
      {ops : List Op} (hs : p.strategy = .leastConnections)
      (hav : p.availableIndices now exclude = available)
      (hsel : (p.select now key exclude).1 = some i)
      (h : Assigns available ((p.apply (.select now key exclude)).apply (.begin i)) ops) :
      Assigns available p (.select now key exclude :: .begin i :: ops)
  | other {p : Pool} {op : Op} {ops : List Op}
      (hop : ∀ i, begins i op = false ∧ ends i op = false)
      (h : Assigns available (p.apply op) ops) : Assigns available p (op :: ops)

theorem outstanding_append_of_not_ends {pre mid : List Op} {i : Nat}
    (hle : pre.countP (ends i) ≤ pre.countP (begins i)) (hends : mid.countP (ends i) = 0) :
    outstanding (pre ++ mid) i = outstanding pre i + mid.countP (begins i) := by
  unfold outstanding
  rw [List.countP_append, List.countP_append, hends]
  omega

/-- The run lemma: a part of a run that assigns calls keeps the counts level. -/
theorem level_assigns {p₀ : Pool} (h₀ : poolSystem.init p₀) {available : List Nat}
    {pre mid : List Op} (ha : Assigns available (poolSystem.exec p₀ pre) mid)
    (hv : poolSystem.Valid p₀ (pre ++ mid)) (hidle : ∀ op ∈ pre ++ mid, AddsIdle op)
    (hm : Matched (pre ++ mid)) (hroom : RoomForCalls (pre ++ mid))
    (h : Level (outstanding pre) available) :
    Level (outstanding (pre ++ mid)) available := by
  generalize hp : poolSystem.exec p₀ pre = p at ha
  induction ha generalizing pre with
  | nil p => rwa [List.append_nil]
  | @assign p now key exclude i ops hs hav hsel _ ih =>
    subst hp
    have hcounter := inFlight_eq_outstanding h₀ hv.left
      (fun op hop => hidle op (List.mem_append_left _ hop)) hm.left hroom.left
    have hleast := ((select_leastConn hs now key exclude).2 i).mp hsel
    rw [hav] at hleast
    simp only [hcounter] at hleast
    have hsplit : pre ++ .select now key exclude :: .begin i :: ops =
        (pre ++ [.select now key exclude, .begin i]) ++ ops := by simp
    rw [hsplit] at hv hidle hm hroom ⊢
    refine ih hv hidle hm hroom (h.add_least hleast fun j => ?_) ?_
    · rw [outstanding_append_of_not_ends (hm.left.left pre [] (by simp) j) rfl]
      simp [begins, List.countP_cons]
    · rw [System.exec_append]
      rfl
  | @other p op ops hop _ ih =>
    subst hp
    have hsplit : pre ++ op :: ops = (pre ++ [op]) ++ ops := by simp
    have hsame : outstanding (pre ++ [op]) = outstanding pre := by
      funext i
      obtain ⟨hb, he⟩ := hop i
      simp [outstanding, List.countP_append, hb, he]
    rw [hsplit] at hv hidle hm hroom ⊢
    refine ih hv hidle hm hroom (by rwa [hsame]) ?_
    exact exec_concat p₀ pre op

/-! ## The contract -/

/-- What a run promises of the outstanding calls.

* The counter of each backend is the number of its outstanding calls.
* A selection by least connections returns, among the backends it may return, the first
  with the least number of outstanding calls.
* While calls are assigned to the same backends and none of them ends, the numbers of
  outstanding calls of two of these differ by at most one, if they were equal before. -/
structure CountsCalls (p₀ : Pool) (ops : List Op) : Prop where
  counter : ∀ pre post, ops = pre ++ post →
    ∀ i, ((poolSystem.exec p₀ pre).backend i).inFlight = outstanding pre i
  least : ∀ pre now key exclude post, ops = pre ++ .select now key exclude :: post →
    (poolSystem.exec p₀ pre).strategy = .leastConnections →
    let available := (poolSystem.exec p₀ pre).availableIndices now exclude
    let selected := ((poolSystem.exec p₀ pre).select now key exclude).1
    (selected = none ↔ available = []) ∧
      ∀ i, selected = some i ↔ LeastOf (outstanding pre) available i
  level : ∀ pre mid post available, ops = pre ++ mid ++ post →
    Assigns available (poolSystem.exec p₀ pre) mid →
    (∀ i ∈ available, ∀ j ∈ available, outstanding pre i = outstanding pre j) →
    ∀ i ∈ available, ∀ j ∈ available,
      outstanding (pre ++ mid) i ≤ outstanding (pre ++ mid) j + 1

theorem RoomForCalls.countsCalls {p₀ : Pool} (h₀ : poolSystem.init p₀) {ops : List Op}
    (hv : poolSystem.Valid p₀ ops) (hidle : ∀ op ∈ ops, AddsIdle op) (hm : Matched ops)
    (hroom : RoomForCalls ops) : CountsCalls p₀ ops := by
  have hcounter : ∀ pre post, ops = pre ++ post →
      ∀ i, ((poolSystem.exec p₀ pre).backend i).inFlight = outstanding pre i := by
    intro pre post heq
    subst heq
    exact inFlight_eq_outstanding h₀ hv.left
      (fun op hop => hidle op (List.mem_append_left _ hop)) hm.left hroom.left
  refine ⟨hcounter, ?_, ?_⟩
  · intro pre now key exclude post heq hs
    have hselect := select_leastConn hs now key exclude
    simp only [hcounter pre _ heq] at hselect
    exact hselect
  · intro pre mid post available heq ha heven
    subst heq
    exact level_assigns h₀ ha hv.left (fun op hop => hidle op (List.mem_append_left _ hop))
      hm.left hroom.left (fun i hi j hj => (heven i hi j hj).le.trans (Nat.le_succ _))

/-- A run in which no call ends that has not begun counts and balances its outstanding
calls if and only if no backend ever has more of them than a `u32` can count. -/
theorem leastConn_outstanding_iff {p₀ : Pool} (h₀ : poolSystem.init p₀) {ops : List Op}
    (hv : poolSystem.Valid p₀ ops) (hidle : ∀ op ∈ ops, AddsIdle op) (hm : Matched ops) :
    CountsCalls p₀ ops ↔ RoomForCalls ops := by
  refine ⟨fun h pre post heq i => ?_, fun hroom => hroom.countsCalls h₀ hv hidle hm⟩
  rw [← h.counter pre post heq i]
  subst heq
  exact inFlight_le h₀ hv.left (fun op hop => hidle op (List.mem_append_left _ hop)) i

/-- Two calls that overlap, the first one ended first. -/
theorem leastConn_outstanding_iff_two :
    let p₀ := Pool.new "api" .leastConnections .default
    let ops : List Op := [.addBackend (.new "a" 1 .default .default),
      .addBackend (.new "b" 2 .default .default), .begin 0, .select 7 none [], .begin 1,
      .endCall 0]
    CountsCalls p₀ ops ↔ RoomForCalls ops := by
  intro p₀ ops
  have hv : poolSystem.Valid p₀ ops :=
    ⟨Backend.fresh_new _ _ _ _, Backend.fresh_new _ _ _ _, Nat.zero_lt_succ 1, trivial,
      Nat.one_lt_two, Nat.zero_lt_succ 1, trivial⟩
  have hidle : ∀ op ∈ ops, AddsIdle op := by
    intro op hop b hb
    subst hb
    have hmem : b = .new "a" 1 .default .default ∨ b = .new "b" 2 .default .default := by
      simpa [ops] using hop
    rcases hmem with rfl | rfl <;> rfl
  have hm : Matched ops := by
    intro as bs heq i
    have hmem := (List.mem_inits _ _).mpr ⟨bs, heq.symm⟩
    simp only [ops, List.inits, List.map, List.mem_cons, List.not_mem_nil, or_false] at hmem
    rcases hmem with rfl | rfl | rfl | rfl | rfl | rfl | rfl <;>
      simp only [List.countP_cons, List.countP_nil, begins, ends, Bool.false_eq_true,
        beq_iff_eq, if_false] <;> omega
  exact leastConn_outstanding_iff ⟨_, _, _, rfl⟩ hv hidle hm

/-- Calls begun one after the other, and none ended. -/
def manyCalls (n : Nat) : List Op :=
  .addBackend (.new "a" 1 .default .default) :: List.replicate n (.begin 0)

theorem manyCalls_succ (n : Nat) : manyCalls (n + 1) = manyCalls n ++ [.begin 0] := by
  rw [manyCalls, manyCalls, List.replicate_succ', List.cons_append]

theorem mem_manyCalls {n : Nat} {op : Op} (h : op ∈ manyCalls n) :
    op = .addBackend (.new "a" 1 .default .default) ∨ op = .begin 0 :=
  (List.mem_cons.mp h).imp id List.eq_of_mem_replicate

theorem addsIdle_manyCalls (n : Nat) : ∀ op ∈ manyCalls n, AddsIdle op := by
  intro op hop b hb
  subst hb
  rcases mem_manyCalls hop with hadd | hbegin
  · rw [Op.addBackend.inj hadd]
    rfl
  · exact absurd hbegin (by simp)

theorem countP_ends_manyCalls {n i : Nat} {ops : List Op} (h : ops ⊆ manyCalls n) :
    ops.countP (ends i) = 0 := by
  refine List.countP_eq_zero.mpr (fun op hop => ?_)
  rcases mem_manyCalls (h hop) with rfl | rfl <;> simp [ends]

theorem matched_manyCalls (n : Nat) : Matched (manyCalls n) := by
  intro pre post heq i
  rw [countP_ends_manyCalls (n := n) (heq ▸ List.subset_append_left _ _)]
  exact Nat.zero_le _

theorem outstanding_manyCalls (n : Nat) : outstanding (manyCalls n) 0 = n := by
  rw [outstanding, countP_ends_manyCalls (List.Subset.refl _), Nat.sub_zero, manyCalls,
    List.countP_cons, List.countP_replicate]
  rfl

theorem manyCalls_spec (n : Nat) :
    let p₀ := Pool.new "api" .leastConnections .default
    poolSystem.Valid p₀ (manyCalls n) ∧ (poolSystem.exec p₀ (manyCalls n)).backends.length = 1 ∧
      ((poolSystem.exec p₀ (manyCalls n)).backend 0).inFlight = n % 2 ^ 32 := by
  intro p₀
  induction n with
  | zero => exact ⟨⟨Backend.fresh_new _ _ _ _, trivial⟩, rfl, rfl⟩
  | succ n ih =>
    obtain ⟨hv, hlen, hcount⟩ := ih
    have hi : 0 < (poolSystem.exec p₀ (manyCalls n)).backends.length := by
      rw [hlen]
      exact Nat.one_pos
    rw [manyCalls_succ, exec_concat]
    refine ⟨(System.valid_append_iff _ _ _ _).mpr ⟨hv, hi, trivial⟩, ?_, ?_⟩
    · exact (length_apply_of_ne _ (by simp)).trans hlen
    · rw [backend_apply_of_lt hi, effect_inFlight, hcount]
      exact Nat.mod_add_mod n (2 ^ 32) 1

/-- Of `2 ^ 32` calls that are begun and not ended the last one takes the counter back to
zero. -/
theorem outstanding_wraps :
    let p₀ := Pool.new "api" .leastConnections .default
    poolSystem.Valid p₀ (manyCalls (2 ^ 32)) ∧
      (∀ op ∈ manyCalls (2 ^ 32), AddsIdle op) ∧ Matched (manyCalls (2 ^ 32)) ∧
      outstanding (manyCalls (2 ^ 32)) 0 = 2 ^ 32 ∧
      ((poolSystem.exec p₀ (manyCalls (2 ^ 32))).backend 0).inFlight = 0 ∧
      ¬ CountsCalls p₀ (manyCalls (2 ^ 32)) := by
  intro p₀
  obtain ⟨hv, _, hcount⟩ := manyCalls_spec (2 ^ 32)
  have hzero : ((poolSystem.exec p₀ (manyCalls (2 ^ 32))).backend 0).inFlight = 0 :=
    hcount.trans (Nat.mod_self _)
  have hout := outstanding_manyCalls (2 ^ 32)
  refine ⟨hv, addsIdle_manyCalls _, matched_manyCalls _, hout, hzero, fun h => ?_⟩
  have hexact := h.counter _ [] (List.append_nil _).symm 0
  rw [hzero, hout] at hexact
  exact absurd hexact (by decide)

end Pool

end Echofront
