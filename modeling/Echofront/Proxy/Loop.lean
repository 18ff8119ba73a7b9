import Echofront.Proxy.Basic

/-!
# The retry loop

What the loop of `Proxy::handle` has done after some turns, and how it ends.

* `Asked` is what the calls of one request do to the pool.  A backend that has
  been asked has begun and ended one call and has served one more; the others keep
  everything that decides whether they are available.
* `Looped` is the loop invariant.  It ties the tried backends, the attempts, the
  attempt number, the first selection and the budget together.
* `Looped.turn_cases` says what one turn can do, and `loop_spec` that the loop
  comes to an end: every turn that goes on has tried one more candidate.
-/

namespace Echofront

open Lib

/-! ## The pool under one request -/

/-- `p` is the pool `q` after the backends `is` have been asked. -/
structure Asked (q : Pool) (is : List Nat) (p : Pool) : Prop where
  reachable : p.Reachable
  name : p.name = q.name
  strategy : p.strategy = q.strategy
  length : p.backends.length = q.backends.length
  untried : ∀ i, i ∉ is → (p.backend i).eraseWeight = (q.backend i).eraseWeight
  tried : ∀ i ∈ is, (p.backend i).inFlight = incr32 (q.backend i).inFlight - 1 ∧
    (p.backend i).served = (q.backend i).served + 1

namespace Asked

variable {p q : Pool} {is : List Nat}

theorem refl (h : q.Reachable) : Asked q [] q :=
  ⟨h, rfl, rfl, rfl, fun _ _ => rfl, by simp⟩

/-- Equal up to the current weight. -/
theorem fields_of_eraseWeight {a b : Backend} (h : a.eraseWeight = b.eraseWeight) :
    a.inFlight = b.inFlight ∧ a.served = b.served ∧ a.weight = b.weight ∧
      ∀ now, a.isAvailable now = b.isAvailable now := by
  cases a
  cases b
  simp only [Backend.eraseWeight, Backend.mk.injEq] at h
  simp_all [Backend.isAvailable, Backend.isEjected]

/-- A selection asks nobody. -/
theorem select (h : Asked q is p) (now : Nat) (key : Option String) (exclude : List Nat) :
    Asked q is (p.select now key exclude).2 := by
  have hf := p.selectFrame_select now key exclude
  refine ⟨System.Reachable.step (M := poolSystem) (a := .select now key exclude) h.reachable
    trivial, hf.name.trans h.name, hf.strategy.trans h.strategy, hf.length.trans h.length,
    fun i hi => (hf.backend i).trans (h.untried i hi), fun i hi => ?_⟩
  obtain ⟨hin, hserved, _⟩ := fields_of_eraseWeight (hf.backend i)
  rw [hin, hserved]
  exact h.tried i hi

/-- A call that begins and ends. -/
theorem reachable_call (h : p.Reachable) {idx : Nat} (hidx : idx < p.backends.length) :
    ((p.begin idx).endCall idx).Reachable ∧
      idx < ((p.begin idx).endCall idx).backends.length := by
  have hlen : idx < (p.begin idx).backends.length := by simpa [Pool.begin] using hidx
  have hbegin : (p.begin idx).Reachable :=
    System.Reachable.step (M := poolSystem) (a := .begin idx) h hidx
  exact ⟨System.Reachable.step (M := poolSystem) (a := .endCall idx) hbegin hlen,
    by simpa [Pool.endCall] using hlen⟩

/-- A call to backend `idx` and its outcome.  `f` is the record of the outcome. -/
theorem answer (h : Asked q is p) {idx : Nat} (hidx : idx < p.backends.length)
    (hnew : idx ∉ is) {f : Backend → Backend}
    (hr : (((p.begin idx).endCall idx).modify idx f).Reachable)
    (hin : ∀ b, (f b).inFlight = b.inFlight) (hserved : ∀ b, (f b).served = b.served + 1) :
    Asked q (is ++ [idx]) (((p.begin idx).endCall idx).modify idx f) := by
  have hb : (p.begin idx).backend idx = (p.backend idx).begin :=
    Pool.backend_modify_self hidx _
  have he : ((p.begin idx).endCall idx).backend idx = (p.backend idx).begin.endCall := by
    rw [Pool.endCall, Pool.backend_modify_self (by simpa [Pool.begin] using hidx), hb]
  have hself : (((p.begin idx).endCall idx).modify idx f).backend idx =
      f (p.backend idx).begin.endCall := by
    rw [Pool.backend_modify_self (by simpa [Pool.begin, Pool.endCall] using hidx), he]
  have hother : ∀ i, i ≠ idx →
      (((p.begin idx).endCall idx).modify idx f).backend i = p.backend i := by
    intro i hi
    rw [Pool.backend_modify_ne hi.symm, Pool.endCall, Pool.backend_modify_ne hi.symm,
      Pool.begin, Pool.backend_modify_ne hi.symm]
  refine ⟨hr, h.name, h.strategy, ?_, fun i hi => ?_, fun i hi => ?_⟩
  · simpa [Pool.begin, Pool.endCall] using h.length
  · have hi' : i ∉ is ∧ i ≠ idx := by simpa [not_or] using hi
    rw [hother i hi'.2]
    exact h.untried i hi'.1
  · rcases List.mem_append.mp hi with hold | hlast
    · have hne : i ≠ idx := fun he => hnew (he ▸ hold)
      rw [hother i hne]
      exact h.tried i hold
    · obtain rfl := List.mem_singleton.mp hlast
      obtain ⟨hf, hs, _⟩ := fields_of_eraseWeight (h.untried i hnew)
      rw [hself, hin, hserved]
      simp [Backend.begin, Backend.endCall, hf, hs]

/-- A call that succeeds. -/
theorem success (h : Asked q is p) {idx : Nat} (hidx : idx < p.backends.length)
    (hnew : idx ∉ is) (now latencyMs : Nat) :
    Asked q (is ++ [idx])
      (((p.begin idx).endCall idx).recordSuccessLatency idx now latencyMs) := by
  obtain ⟨hr, hlen⟩ := reachable_call h.reachable hidx
  refine h.answer hidx hnew (System.Reachable.step (M := poolSystem)
    (a := .recordSuccessLatency idx now latencyMs) hr hlen) (fun b => ?_) (fun b => ?_) <;>
    rw [Backend.recordSuccessLatency_eq]

/-- A call that fails. -/
theorem failure (h : Asked q is p) {idx : Nat} (hidx : idx < p.backends.length)
    (hnew : idx ∉ is) (now : Nat) :
    Asked q (is ++ [idx]) (((p.begin idx).endCall idx).recordFailure idx now) := by
  obtain ⟨hr, hlen⟩ := reachable_call h.reachable hidx
  refine h.answer hidx hnew (System.Reachable.step (M := poolSystem)
    (a := .recordFailure idx now) hr hlen) (fun b => ?_) (fun b => ?_) <;>
    rw [Backend.recordFailure_eq]

/-- The candidates are those of the start that have not been tried. -/
theorem mem_candidates_iff (h : Asked q is p) (now i : Nat) :
    i ∈ p.candidates now is ↔ i ∈ q.candidates now [] ∧ i ∉ is := by
  rw [Pool.mem_candidates, Pool.mem_candidates, h.length, h.strategy]
  by_cases hi : i ∈ is
  · simp [hi]
  · obtain ⟨_, _, hw, hav⟩ := fields_of_eraseWeight (h.untried i hi)
    simp [hi, hw, hav]

end Asked

theorem UpstreamReply.isOk_eq_false {r : UpstreamReply} {e : UpstreamError}
    (h : r.outcome = .error e) : r.isOk = false := by
  rw [UpstreamReply.isOk, h]

theorem UpstreamReply.isOk_eq_true {r : UpstreamReply} {resp : Response}
    (h : r.outcome = .ok resp) : r.isOk = true := by
  rw [UpstreamReply.isOk, h]

namespace HandleLoop

/-! ## The loop invariant -/

/-- What the loop has done when a turn begins.  `s₀` is the start of the loop. -/
structure Looped (c : Call) (s₀ s : HandleLoop) : Prop where
  pool : Asked s₀.pool s.tried s.pool
  candidates : ∀ i ∈ s.tried, i ∈ s₀.pool.candidates c.now []
  nodup : s.tried.Nodup
  failed : ∀ i ∈ s.tried, ∃ e, (c.replies i).outcome = .error e
  fresh : s.tried = [] → s = s₀
  firstPick : ∀ i, s.tried.head? = some i → (s₀.pool.select c.now c.key []).1 = some i
  firstSelected : s.firstSelected = s.tried.head?
  attempts : s.attempts.map Attempt.backend = s.tried
  notOk : ∀ a ∈ s.attempts, a.ok = false
  isRetry : ∀ (k : Nat) (a : Attempt), s.attempts[k]? = some a → a.isRetry = decide (0 < k)
  attemptNo : s.attemptNo = s.tried.length
  limit : s.tried.length ≤ c.maxRetries
  budget : s.budget = s₀.budget.spend s.tried.length
  granted : s₀.budget.grants s.tried.length = true
  totalRetries : s.totalRetries = s₀.totalRetries + s.tried.length
  totalFailovers : s.totalFailovers = s₀.totalFailovers + (s.tried.length - 1)

/-- The start of a loop. -/
structure Starts (s₀ : HandleLoop) : Prop where
  reachable : s₀.pool.Reachable
  attempts : s₀.attempts = []
  tried : s₀.tried = []
  firstSelected : s₀.firstSelected = none
  attemptNo : s₀.attemptNo = 0

theorem Starts.looped {c : Call} {s₀ : HandleLoop} (h : Starts s₀) : Looped c s₀ s₀ where
  pool := by rw [h.tried]; exact .refl h.reachable
  candidates := by simp [h.tried]
  nodup := by simp [h.tried]
  failed := by simp [h.tried]
  fresh := fun _ => rfl
  firstPick := by simp [h.tried]
  firstSelected := by simp [h.tried, h.firstSelected]
  attempts := by simp [h.tried, h.attempts]
  notOk := by simp [h.attempts]
  isRetry := by simp [h.attempts]
  attemptNo := by simp [h.tried, h.attemptNo]
  limit := by simp [h.tried]
  budget := by simp [h.tried, RetryBudget.spend]
  granted := by simp [h.tried, RetryBudget.grants]
  totalRetries := by simp [h.tried]
  totalFailovers := by simp [h.tried]

/-- `s'` is `s` after backend `idx` has answered. -/
structure Answered (s₀ s : HandleLoop) (idx : Nat) (ok : Bool) (s' : HandleLoop) : Prop where
  pool : Asked s₀.pool (s.tried ++ [idx]) s'.pool
  attempts : ∃ a : Attempt, s'.attempts = s.attempts ++ [a] ∧ a.backend = idx ∧ a.ok = ok ∧
    a.isRetry = decide (0 < s.tried.length)
  firstSelected : s'.firstSelected = (s.tried ++ [idx]).head?
  totalRetries : s'.totalRetries = s.totalRetries
  totalFailovers : s'.totalFailovers = s₀.totalFailovers + s.tried.length

/-- Backend `idx` is selected in the turn that begins with `s`. -/
structure Selects (c : Call) (s₀ s : HandleLoop) (idx : Nat) : Prop where
  candidate : idx ∈ s₀.pool.candidates c.now []
  untried : idx ∉ s.tried
  first : s.tried = [] → (s₀.pool.select c.now c.key []).1 = some idx

section Turn

variable {c : Call} {s₀ s : HandleLoop}

theorem Looped.selects (h : Looped c s₀ s) {idx : Nat}
    (hsel : (s.pool.select c.now c.key s.tried).1 = some idx) : Selects c s₀ s idx := by
  have hmem := Pool.select_mem (Pool.ringOk_of_reachable h.pool.reachable) hsel
  obtain ⟨hcand, hnew⟩ := (h.pool.mem_candidates_iff c.now idx).mp hmem
  refine ⟨hcand, hnew, fun hnil => ?_⟩
  rw [hnil, h.fresh hnil] at hsel
  exact hsel

theorem Looped.nodup_concat (h : Looped c s₀ s) {idx : Nat} (hsel : Selects c s₀ s idx) :
    (s.tried ++ [idx]).Nodup := by
  rw [List.nodup_append]
  refine ⟨h.nodup, by simp, fun i hi j hj he => hsel.untried ?_⟩
  rwa [← List.mem_singleton.mp hj, ← he]

theorem Looped.candidates_concat (h : Looped c s₀ s) {idx : Nat}
    (hsel : Selects c s₀ s idx) :
    ∀ i ∈ s.tried ++ [idx], i ∈ s₀.pool.candidates c.now [] :=
  List.forall_mem_append.mpr ⟨h.candidates, List.forall_mem_singleton.mpr hsel.candidate⟩

/-- The select and the call of a turn, before the outcome is recorded. -/
def asking (c : Call) (s : HandleLoop) (idx : Nat) : HandleLoop :=
  { s with pool := (s.pool.select c.now c.key s.tried).2 }.ask idx

theorem Looped.asking_lt (h : Looped c s₀ s) {idx : Nat} (hsel : Selects c s₀ s idx) :
    idx < (s.pool.select c.now c.key s.tried).2.backends.length := by
  rw [(h.pool.select c.now c.key s.tried).length]
  exact (Pool.mem_candidates.mp hsel.candidate).1

theorem Looped.firstSelected_asking (h : Looped c s₀ s) (idx : Nat) :
    (asking c s idx).firstSelected = (s.tried ++ [idx]).head? := by
  have hfirst : (asking c s idx).firstSelected =
      if s.firstSelected = none then some idx else s.firstSelected := rfl
  rw [hfirst, h.firstSelected]
  cases s.tried <;> simp

theorem Looped.totalFailovers_asking (h : Looped c s₀ s) (idx : Nat) :
    (asking c s idx).totalFailovers = s₀.totalFailovers + s.tried.length := by
  have hfail : (asking c s idx).totalFailovers =
      if 0 < s.attemptNo then s.totalFailovers + 1 else s.totalFailovers := rfl
  rw [hfail, h.attemptNo, h.totalFailovers]
  split_ifs <;> omega

theorem Looped.succeed (h : Looped c s₀ s) {idx : Nat} (hsel : Selects c s₀ s idx)
    (resp : Response) (latencyMs : Nat) :
    Answered s₀ s idx true ((asking c s idx).succeed c.now idx resp latencyMs) where
  pool := (h.pool.select c.now c.key s.tried).success (h.asking_lt hsel) hsel.untried _ _
  attempts := ⟨_, rfl, rfl, rfl, by rw [← h.attemptNo]; rfl⟩
  firstSelected := h.firstSelected_asking idx
  totalRetries := rfl
  totalFailovers := h.totalFailovers_asking idx

theorem Looped.fail (h : Looped c s₀ s) {idx : Nat} (hsel : Selects c s₀ s idx)
    (e : UpstreamError) (latencyMs : Nat) :
    Answered s₀ s idx false ((asking c s idx).fail c.now idx e latencyMs) where
  pool := (h.pool.select c.now c.key s.tried).failure (h.asking_lt hsel) hsel.untried _
  attempts := ⟨_, rfl, rfl, rfl, by rw [← h.attemptNo]; rfl⟩
  firstSelected := h.firstSelected_asking idx
  totalRetries := rfl
  totalFailovers := h.totalFailovers_asking idx

/-! ## One turn -/

/-- The three ways the test for a retry can go. -/
theorem retry_cases (s : HandleLoop) (maxRetries : Nat) :
    (maxRetries < s.attemptNo ∧
      s.retry maxRetries = .finished (.error (.allAttemptsFailed s.attemptNo)) s) ∨
    (s.attemptNo ≤ maxRetries ∧ s.budget.tryRetry.1 = false ∧
      s.retry maxRetries = .finished (.error (.allAttemptsFailed s.attemptNo))
        { s with budget := s.budget.tryRetry.2 }) ∨
    (s.attemptNo ≤ maxRetries ∧ s.budget.tryRetry.1 = true ∧
      s.retry maxRetries = .again
        { s with
          budget := s.budget.tryRetry.2
          totalRetries := s.totalRetries + 1 }) := by
  unfold retry
  by_cases hlim : maxRetries < s.attemptNo
  · exact Or.inl ⟨hlim, by simp [hlim]⟩
  · have hle := Nat.le_of_not_lt hlim
    cases hg : s.budget.tryRetry.1 with
    | false => exact Or.inr (Or.inl ⟨hle, rfl, by simp [hlim, hg]⟩)
    | true => exact Or.inr (Or.inr ⟨hle, rfl, by simp [hlim, hg]⟩)

theorem Looped.attempts_length (h : Looped c s₀ s) : s.attempts.length = s.tried.length := by
  rw [← h.attempts, List.length_map]

/-- The entry that an answer adds keeps the rule of `is_retry`. -/
theorem Looped.isRetry_append (h : Looped c s₀ s) {a : Attempt}
    (ha : a.isRetry = decide (0 < s.tried.length)) (k : Nat) (b : Attempt)
    (hb : (s.attempts ++ [a])[k]? = some b) : b.isRetry = decide (0 < k) := by
  refine System.forall_getElem?_concat h.isRetry ?_ k b hb
  rw [ha, h.attempts_length]

/-- A failure that is retried keeps the invariant. -/
theorem Looped.again (h : Looped c s₀ s) {idx : Nat} (hsel : Selects c s₀ s idx)
    {e : UpstreamError} (hreply : (c.replies idx).outcome = .error e) (latencyMs : Nat)
    (hlim : s.tried.length + 1 ≤ c.maxRetries) (hg : s.budget.tryRetry.1 = true) :
    Looped c s₀
      { (asking c s idx).fail c.now idx e latencyMs with
        budget := s.budget.tryRetry.2
        totalRetries := s.totalRetries + 1 } := by
  have ha := h.fail hsel e latencyMs
  obtain ⟨a, hatt, hab, haok, haret⟩ := ha.attempts
  have htried : ((asking c s idx).fail c.now idx e latencyMs).tried = s.tried ++ [idx] := rfl
  refine
    { pool := ha.pool
      candidates := h.candidates_concat hsel
      nodup := h.nodup_concat hsel
      failed := List.forall_mem_append.mpr
        ⟨h.failed, List.forall_mem_singleton.mpr ⟨e, hreply⟩⟩
      fresh := fun hnil => absurd (htried.symm.trans hnil) (by simp)
      firstPick := ?_
      firstSelected := ha.firstSelected
      attempts := ?_
      notOk := ?_
      isRetry := ?_
      attemptNo := ?_
      limit := ?_
      budget := ?_
      granted := ?_
      totalRetries := ?_
      totalFailovers := ?_ } <;> simp only [htried, hatt, List.length_append, List.length_singleton]
  · intro i hi
    cases hnil : s.tried with
    | nil =>
      obtain rfl : idx = i := by simpa [hnil] using hi
      exact hsel.first hnil
    | cons j js => exact h.firstPick i (by simpa [hnil] using hi)
  · rw [List.map_append, h.attempts, List.map_singleton, hab]
  · exact List.forall_mem_append.mpr ⟨h.notOk, List.forall_mem_singleton.mpr haok⟩
  · exact h.isRetry_append haret
  · show s.attemptNo + 1 = _
    rw [h.attemptNo]
  · exact hlim
  · rw [RetryBudget.spend, ← h.budget]
  · rw [RetryBudget.grants, h.granted, ← h.budget, hg]
    rfl
  · rw [h.totalRetries]
    omega
  · exact ha.totalFailovers

/-- How the last turn of the loop ends.

* No candidate is left, and the turn changes nothing.
* The selected backend answers.
* It fails, and the limit or the budget denies a retry. -/
inductive LastTurn (c : Call) (s₀ s : HandleLoop) :
    Except ProxyError Response → HandleLoop → Prop
  | unselected (hall : ∀ i ∈ s₀.pool.candidates c.now [], i ∈ s.tried) :
      LastTurn c s₀ s (.error s.unselected) s
  | succeeded {idx : Nat} {resp : Response} {s' : HandleLoop} (hsel : Selects c s₀ s idx)
      (hreply : (c.replies idx).outcome = .ok resp) (ha : Answered s₀ s idx true s')
      (hbudget : s'.budget = s.budget) : LastTurn c s₀ s (.ok resp) s'
  | exhausted {idx : Nat} {e : UpstreamError} {s' : HandleLoop} (hsel : Selects c s₀ s idx)
      (hreply : (c.replies idx).outcome = .error e) (ha : Answered s₀ s idx false s')
      (hdenied : (c.maxRetries < s.tried.length + 1 ∧ s'.budget = s.budget) ∨
        (s.budget.tryRetry.1 = false ∧ s'.budget = s.budget.tryRetry.2)) :
      LastTurn c s₀ s (.error (.allAttemptsFailed (s.tried.length + 1))) s'

/-- One turn ends the loop, or tries one more candidate and keeps the invariant. -/
theorem Looped.turn_cases (h : Looped c s₀ s) :
    (∃ response s', s.turn c = .finished response s' ∧ LastTurn c s₀ s response s') ∨
    (∃ idx s', s.turn c = .again s' ∧ Looped c s₀ s' ∧ s'.tried = s.tried ++ [idx]) := by
  cases hsel : (s.pool.select c.now c.key s.tried).1 with
  | none =>
    have hnil := Pool.select_eq_none_iff.mp hsel
    have hall : ∀ i ∈ s₀.pool.candidates c.now [], i ∈ s.tried := by
      intro i hi
      by_contra hnew
      have hmem := (h.pool.mem_candidates_iff c.now i).mpr ⟨hi, hnew⟩
      rw [hnil] at hmem
      simp at hmem
    have hturn : s.turn c = .finished (.error s.unselected) s := by
      rw [turn, Pool.select_of_nil c.key hnil]
    exact Or.inl ⟨_, _, hturn, .unselected hall⟩
  | some idx =>
    have hsels := h.selects hsel
    have hpair : s.pool.select c.now c.key s.tried =
        (some idx, (s.pool.select c.now c.key s.tried).2) := by rw [← hsel]
    cases hreply : (c.replies idx).outcome with
    | ok resp =>
      have hturn : s.turn c = .finished (.ok resp)
          ((asking c s idx).succeed c.now idx resp (c.replies idx).latencyMs) := by
        rw [turn, hpair]
        simp only [hreply, asking]
      exact Or.inl ⟨_, _, hturn, .succeeded hsels hreply (h.succeed hsels _ _) rfl⟩
    | error e =>
      have hturn : s.turn c =
          ((asking c s idx).fail c.now idx e (c.replies idx).latencyMs).retry c.maxRetries := by
        rw [turn, hpair]
        simp only [hreply, asking]
      have ha := h.fail hsels e (c.replies idx).latencyMs
      have hno : ((asking c s idx).fail c.now idx e (c.replies idx).latencyMs).attemptNo =
          s.tried.length + 1 := by
        rw [← h.attemptNo]
        rfl
      rcases retry_cases ((asking c s idx).fail c.now idx e (c.replies idx).latencyMs)
          c.maxRetries with ⟨hlim, hr⟩ | ⟨_, hg, hr⟩ | ⟨hlim, hg, hr⟩
      · rw [hr, hno] at hturn
        rw [hno] at hlim
        exact Or.inl ⟨_, _, hturn, .exhausted hsels hreply ha (Or.inl ⟨hlim, rfl⟩)⟩
      · rw [hr, hno] at hturn
        exact Or.inl ⟨_, _, hturn, .exhausted hsels hreply
          ⟨ha.pool, ha.attempts, ha.firstSelected, ha.totalRetries, ha.totalFailovers⟩
          (Or.inr ⟨hg, rfl⟩)⟩
      · rw [hr] at hturn
        rw [hno] at hlim
        exact Or.inr ⟨idx, _, hturn, h.again hsels hreply _ hlim hg, rfl⟩

/-! ## The whole loop -/

/-- With more fuel than candidates that have not been tried, the loop ends. -/
theorem Looped.loop_spec (h : Looped c s₀ s) {fuel : Nat}
    (hfuel : (s₀.pool.candidates c.now []).length < s.tried.length + fuel) :
    ∃ response s₁ s', loop c fuel s = some (response, s') ∧ Looped c s₀ s₁ ∧
      LastTurn c s₀ s₁ response s' := by
  induction fuel generalizing s with
  | zero =>
    have hle : s.tried.length ≤ (s₀.pool.candidates c.now []).length :=
      (List.subperm_of_subset h.nodup h.candidates).length_le
    omega
  | succ fuel ih =>
    rcases h.turn_cases with ⟨response, s', hturn, hlast⟩ | ⟨idx, s', hturn, hs', htried⟩
    · exact ⟨response, s, s', by rw [loop, hturn], h, hlast⟩
    · have hmore : (s₀.pool.candidates c.now []).length < s'.tried.length + fuel := by
        rw [htried, List.length_append, List.length_singleton]
        omega
      obtain ⟨response, s₁, s'', hloop, hrest⟩ := ih hs' hmore
      exact ⟨response, s₁, s'', by rw [loop, hturn]; exact hloop, hrest⟩

/-- More fuel changes nothing. -/
theorem loop_of_le {fuel fuel' : Nat} {r : Except ProxyError Response × HandleLoop}
    (h : loop c fuel s = some r) (hle : fuel ≤ fuel') : loop c fuel' s = some r := by
  induction fuel generalizing s fuel' with
  | zero => simp [loop] at h
  | succ fuel ih =>
    obtain ⟨fuel', rfl⟩ : ∃ k, fuel' = k + 1 := ⟨fuel' - 1, by omega⟩
    rw [loop] at h ⊢
    cases hturn : s.turn c with
    | finished response s' => rw [hturn] at h; exact h
    | again s' =>
      rw [hturn] at h
      exact ih h (Nat.le_of_succ_le_succ hle)

/-! ## What the loop leaves behind -/

/-- The trace that the loop leaves. -/
structure Traced (c : Call) (s₀ s : HandleLoop) : Prop where
  pool : Asked s₀.pool (s.attempts.map Attempt.backend) s.pool
  candidates : ∀ i ∈ s.attempts.map Attempt.backend, i ∈ s₀.pool.candidates c.now []
  nodup : (s.attempts.map Attempt.backend).Nodup
  notOk : ∀ (k : Nat) (a : Attempt), s.attempts[k]? = some a →
    k + 1 < s.attempts.length → a.ok = false
  isRetry : ∀ (k : Nat) (a : Attempt), s.attempts[k]? = some a → a.isRetry = decide (0 < k)
  firstSelected : s.firstSelected = (s.attempts.map Attempt.backend).head?
  limit : s.attempts.length ≤ c.maxRetries + 1
  totalFailovers : s.totalFailovers = s₀.totalFailovers + (s.attempts.length - 1)

theorem Looped.traced (h : Looped c s₀ s) : Traced c s₀ s where
  pool := by rw [h.attempts]; exact h.pool
  candidates := by rw [h.attempts]; exact h.candidates
  nodup := by rw [h.attempts]; exact h.nodup
  notOk := fun _ a ha _ => h.notOk a (List.mem_of_getElem? ha)
  isRetry := h.isRetry
  firstSelected := by rw [h.attempts]; exact h.firstSelected
  limit := by rw [h.attempts_length]; exact Nat.le_succ_of_le h.limit
  totalFailovers := by rw [h.attempts_length]; exact h.totalFailovers

theorem Answered.attempts_length {idx : Nat} {ok : Bool} {s' : HandleLoop}
    (ha : Answered s₀ s idx ok s') (h : Looped c s₀ s) :
    s'.attempts.length = s.tried.length + 1 := by
  obtain ⟨a, hatt, _⟩ := ha.attempts
  rw [hatt, List.length_append, h.attempts_length, List.length_singleton]

theorem Looped.traced_of_answered (h : Looped c s₀ s) {idx : Nat} {ok : Bool}
    {s' : HandleLoop} (hsel : Selects c s₀ s idx) (ha : Answered s₀ s idx ok s') :
    Traced c s₀ s' := by
  obtain ⟨a, hatt, hab, -, haret⟩ := ha.attempts
  have hmap : s'.attempts.map Attempt.backend = s.tried ++ [idx] := by
    rw [hatt, List.map_append, h.attempts, List.map_singleton, hab]
  have hlen := ha.attempts_length h
  refine
    { pool := by rw [hmap]; exact ha.pool
      candidates := by rw [hmap]; exact h.candidates_concat hsel
      nodup := by rw [hmap]; exact h.nodup_concat hsel
      notOk := ?_
      isRetry := by rw [hatt]; exact h.isRetry_append haret
      firstSelected := by rw [hmap]; exact ha.firstSelected
      limit := by rw [hlen]; exact Nat.succ_le_succ h.limit
      totalFailovers := by rw [hlen]; exact ha.totalFailovers }
  intro k b hb hk
  rw [hlen] at hk
  rw [hatt, List.getElem?_append_left (by rw [h.attempts_length]; omega)] at hb
  exact h.notOk b (List.mem_of_getElem? hb)

/-- The loop leaves a trace. -/
theorem LastTurn.traced {response : Except ProxyError Response} {s' : HandleLoop}
    (hl : LastTurn c s₀ s response s') (h : Looped c s₀ s) : Traced c s₀ s' := by
  cases hl with
  | unselected _ => exact h.traced
  | succeeded hsel _ ha _ => exact h.traced_of_answered hsel ha
  | exhausted hsel _ ha _ => exact h.traced_of_answered hsel ha

/-- The last turn adds an attempt, unless every candidate has been tried. -/
theorem LastTurn.attempts_length {response : Except ProxyError Response} {s' : HandleLoop}
    (hl : LastTurn c s₀ s response s') (h : Looped c s₀ s) :
    ((∀ i ∈ s₀.pool.candidates c.now [], i ∈ s.tried) ∧
      s'.attempts.length = s.tried.length) ∨
    s'.attempts.length = s.tried.length + 1 := by
  cases hl with
  | unselected hall => exact Or.inl ⟨hall, h.attempts_length⟩
  | succeeded _ _ ha _ => exact Or.inr (ha.attempts_length h)
  | exhausted _ _ ha _ => exact Or.inr (ha.attempts_length h)

/-- The failed attempts are those of the tried backends. -/
theorem Looped.ok_eq (h : Looped c s₀ s) :
    ∀ a ∈ s.attempts, a.ok = (c.replies a.backend).isOk := by
  intro a ha
  have hmem : a.backend ∈ s.tried := h.attempts ▸ List.mem_map_of_mem ha
  obtain ⟨e, he⟩ := h.failed _ hmem
  rw [h.notOk a ha, UpstreamReply.isOk_eq_false he]

theorem Answered.ok_eq {idx : Nat} {ok : Bool} {s' : HandleLoop}
    (ha : Answered s₀ s idx ok s') (h : Looped c s₀ s) (hok : ok = (c.replies idx).isOk) :
    ∀ a ∈ s'.attempts, a.ok = (c.replies a.backend).isOk := by
  obtain ⟨a, hatt, hab, haok, _⟩ := ha.attempts
  rw [hatt]
  refine List.forall_mem_append.mpr ⟨h.ok_eq, List.forall_mem_singleton.mpr ?_⟩
  rw [hab, haok, hok]

/-- An attempt is ok if its backend replies so. -/
theorem LastTurn.ok_eq {response : Except ProxyError Response} {s' : HandleLoop}
    (hl : LastTurn c s₀ s response s') (h : Looped c s₀ s) :
    ∀ a ∈ s'.attempts, a.ok = (c.replies a.backend).isOk := by
  cases hl with
  | unselected _ => exact h.ok_eq
  | succeeded _ hreply ha _ => exact ha.ok_eq h (UpstreamReply.isOk_eq_true hreply).symm
  | exhausted _ hreply ha _ => exact ha.ok_eq h (UpstreamReply.isOk_eq_false hreply).symm

/-- The response goes with the attempts: it is the reply of the last backend after a last
attempt that is ok, and otherwise it counts the failed attempts. -/
theorem LastTurn.response {response : Except ProxyError Response} {s' : HandleLoop}
    (hl : LastTurn c s₀ s response s') (h : Looped c s₀ s) :
    (∃ resp a, response = .ok resp ∧ s'.attempts.getLast? = some a ∧ a.ok = true ∧
      (c.replies a.backend).outcome = .ok resp) ∨
    ((∀ a ∈ s'.attempts, a.ok = false) ∧ response = .error
      (if s'.attempts = [] then .noHealthyUpstream
        else .allAttemptsFailed s'.attempts.length)) := by
  cases hl with
  | unselected _ =>
    refine Or.inr ⟨h.notOk, ?_⟩
    rw [HandleLoop.unselected, h.attemptNo, ← h.attempts_length]
    simp
  | @succeeded idx resp s' _ hreply ha _ =>
    obtain ⟨a, hatt, hab, haok, _⟩ := ha.attempts
    exact Or.inl ⟨resp, a, rfl, by rw [hatt]; simp, haok, hab ▸ hreply⟩
  | exhausted _ _ ha _ =>
    obtain ⟨a, hatt, _, haok, _⟩ := ha.attempts
    refine Or.inr ⟨?_, ?_⟩
    · rw [hatt]
      exact List.forall_mem_append.mpr ⟨h.notOk, List.forall_mem_singleton.mpr haok⟩
    · rw [hatt]
      simp [h.attempts_length]

end Turn

end HandleLoop

end Echofront
