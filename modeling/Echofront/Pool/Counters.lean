import Echofront.Pool.Outlier
import Echofront.Pool.Probes
import Echofront.Pool.Ramp
import Echofront.Pool.Sustained
import Echofront.Lib.Counter

/-!
# The run length counters

A backend counts samples, failures in a row and equal replies in a row in `u32` words,
and raises each with a plain `+= 1`.  Sums and differences of times saturate, and so does
the difference of two sample counts; these increments do not.

* `RunLength` names the four counters, `raises` says which calls compute the increment of
  a counter, and `tick` what such a call makes of it.
* `value_apply` is the step lemma, and `counter` the counter of a run that it gives.  A
  reply that changes the health is counted and cleared at once; `CountsZero` is the
  invariant that this count does not overflow.
* `CountersExact` is what a run promises of the counters of a backend.
  `counters_exact_iff` says which runs keep the promise, and `busy_counter_wraps` is a run
  that does not.
-/

namespace Echofront

open Lib

namespace Pool

/-- The reply to the probe that a call sends to backend `i`. -/
def probeReply (i : Nat) (p : Pool) (op : Op) : Option Bool :=
  if i < p.backends.length then (issuedProbe i p op).map Prod.snd else none

/-- The counters of a backend that a call raises by one. -/
inductive RunLength where
  | ewmaSamples
  | outlierFailures
  /-- `probe_successes` for good replies, and `probe_failures` for bad ones. -/
  | probes (live : Bool)

namespace RunLength

def value (b : Backend) : RunLength → Nat
  | .ewmaSamples => b.ewmaSamples
  | .outlierFailures => b.outlierFailures
  | .probes live => b.probing.count live

/-- Whether a call computes the increment of the counter of backend `i`. -/
def raises (i : Nat) (p : Pool) (op : Op) : RunLength → Bool
  | .ewmaSamples => (latencySample i p op).isSome
  | .outlierFailures => failsFrom i 0 op
  | .probes live => probeReply i p op == some live

/-- Whether a call leaves the counter of backend `i` one higher, or at zero. -/
def tick (i : Nat) (p : Pool) (op : Op) : RunLength → Option Bool
  | .ewmaSamples => (latencySample i p op).map fun _ => true
  | .outlierFailures =>
    if failsFrom i 0 op then some true
    else if succeeds i op ∨ reinstateTime i p op ≠ none then some false
    else none
  | .probes live => (probeReply i p op).map fun reply =>
    reply == live && !(p.backend i).changesHealth p.health live

/-! ## What one call does to a counter -/

theorem tick_of_ge {p : Pool} {op : Op} (hok : p.Accepts op) {i : Nat}
    (hge : p.backends.length ≤ i) (c : RunLength) : c.tick i p op = none := by
  have hne := backend_ne_of_ge hok hge
  cases c with
  | ewmaSamples => simp [tick, latencySample_of_ne p hne]
  | outlierFailures =>
    have hdefault : p.backend i = default := backend_of_ge hge
    cases op with
    | poll now => simp [tick, failsFrom, succeeds, reinstateTime, hdefault, default, Backend.new]
    | _ => simp_all [tick, failsFrom, succeeds, reinstateTime, Op.backend]
  | probes live => simp [tick, probeReply, Nat.not_lt_of_ge hge]

theorem outlierFailures_tick (p : Pool) (op : Op) (i : Nat) :
    (p.effect op i (p.backend i)).outlierFailures =
      match outlierFailures.tick i p op with
      | none => (p.backend i).outlierFailures
      | some true => incr32 (p.backend i).outlierFailures
      | some false => 0 := by
  cases hf : failsFrom i 0 op with
  | true =>
    cases op with
    | recordFailure idx now =>
      have hidx : idx = i := by simpa [failsFrom] using hf
      simp only [tick, hf, if_true, effect, if_pos hidx, Backend.recordFailure_eq]
    | _ => exact absurd hf (by simp [failsFrom])
  | false =>
    cases hs : succeeds i op with
    | true => simp [tick, hf, hs, outlierFailures_of_succeeds hs]
    | false =>
      cases hpoll : op.pollTime with
      | none =>
        have hre : reinstateTime i p op = none := by
          cases op with
          | poll now => exact absurd hpoll (by simp [Op.pollTime])
          | _ => rfl
        simp [tick, hf, hs, hre, outlierFailures_effect hpoll hs hf]
      | some now =>
        obtain rfl := Op.eq_poll_of_pollTime hpoll
        have hre : reinstateTime i p (.poll now) ≠ none ↔
            (p.backend i).ejectedUntil ≠ none ∧ (p.backend i).isEjected now = false := by
          unfold reinstateTime Backend.isEjected
          cases (p.backend i).ejectedUntil <;> simp
        simp only [tick, hf, hs, effect, Backend.poll_outlierFailures, hre]
        split_ifs <;> simp_all

theorem probes_tick {p : Pool} {i : Nat} (hi : i < p.backends.length) (op : Op) (live : Bool) :
    (p.effect op i (p.backend i)).probing.count live =
      match (probes live).tick i p op with
      | none => (p.backend i).probing.count live
      | some true => incr32 ((p.backend i).probing.count live)
      | some false => 0 := by
  rcases p.effect_probe_cases op i with ⟨hnone, hkeep⟩ | ⟨now, reply, hsome, hdue, heff⟩
  · simp [tick, probeReply, hnone, hkeep]
  · obtain ⟨_, _, hcount⟩ := Backend.probing_runHealthCheck hdue reply
    have htick : (probes live).tick i p op =
        some (reply == live && !(p.backend i).changesHealth p.health live) := by
      simp [tick, probeReply, hi, hsome]
    rw [htick, heff, hcount]
    by_cases heq : reply = live
    · subst heq
      cases (p.backend i).changesHealth p.health reply <;> simp
    · have hbeq : (reply == live) = false := beq_eq_false_iff_ne.mpr heq
      simp [hbeq, Ne.symm heq]

/-- The step lemma. -/
theorem value_apply {p : Pool} {op : Op} (hok : p.Accepts op) (i : Nat) (c : RunLength) :
    c.value ((p.apply op).backend i) =
      match c.tick i p op with
      | none => c.value (p.backend i)
      | some true => incr32 (c.value (p.backend i))
      | some false => 0 := by
  rcases backend_apply_cases hok i with ⟨hi, heq⟩ | ⟨hge, health, bcfg, hb⟩
  · rw [heq]
    cases c with
    | ewmaSamples =>
      rcases p.effect_average_cases op i (p.backend i) with ⟨hs, _, h⟩ | ⟨_, _, hs, _, h⟩ <;>
        simp [tick, value, hs, h]
    | outlierFailures => exact outlierFailures_tick p op i
    | probes live => exact probes_tick hi op live
  · rw [tick_of_ge hok hge, hb, backend_of_ge hge]
    cases c with
    | probes live => cases live <;> rfl
    | _ => rfl

/-- The counter of backend `i`. -/
def counter (i : Nat) (c : RunLength) : Counter poolSystem (2 ^ 32) where
  value p := c.value (p.backend i)
  tick p op := c.tick i p op
  value_step _ _ hok := value_apply hok i c

theorem value_new {p₀ : Pool} (h₀ : poolSystem.init p₀) (i : Nat) (c : RunLength) :
    c.value (p₀.backend i) = 0 := by
  obtain ⟨name, strategy, health, rfl⟩ := h₀
  cases c with
  | probes live => cases live <;> rfl
  | _ => rfl

theorem value_lt_of_reachable {p : Pool} (h : p.Reachable) (i : Nat) (c : RunLength) :
    c.value (p.backend i) < 2 ^ 32 := by
  obtain ⟨p₀, ops, h₀, hv, rfl⟩ := h
  have hvalue := (counter i c).value_exec (value_new h₀ i c) hv
  exact hvalue.trans_lt (Nat.mod_lt _ (by decide))

end RunLength

/-! ## The increments of a run -/

/-- A threshold of zero lets no reply against the health be counted. -/
def CountsZero (health : HealthConfig) (b : Backend) : Prop :=
  ∀ live, b.healthy ≠ live → health.probeThreshold live = 0 → b.probing.count live = 0

theorem countsZero_runHealthCheck {health : HealthConfig} {now : Nat} {b : Backend}
    (hdue : b.probeDue health now = true) (live : Bool) :
    CountsZero health (b.runHealthCheck health now live) := by
  obtain ⟨_, hhealthy, hcount⟩ := Backend.probing_runHealthCheck hdue live
  intro v hv hzero
  rw [hhealthy] at hv
  rw [hcount]
  by_cases hlive : v = live
  · subst hlive
    -- a reply that is not the health now was not counted, it changed the health
    have hchange : b.changesHealth health v = true := by
      by_contra hno
      rw [if_neg hno] at hv
      exact hno (by simp [Backend.changesHealth, hzero, Ne.symm hv])
    simp [hchange]
  · simp [hlive]

theorem countsZero_of_reachable {p : Pool} (h : p.Reachable) (i : Nat) :
    CountsZero p.health (p.backend i) := by
  have hfresh : ∀ {health : HealthConfig} {b : Backend}, b.Fresh → CountsZero health b := by
    rintro health b ⟨bhealth, bcfg, hb⟩ live _ _
    rw [hb]
    cases live <;> rfl
  refine System.Reachable.invariant (M := poolSystem)
    (I := fun p => CountsZero p.health (p.backend i)) ?_ ?_ h
  · rintro p₀ ⟨name, strategy, health, rfl⟩
    exact hfresh ⟨.default, .default, rfl⟩
  · intro p op hp hok
    show CountsZero (p.apply op).health ((p.apply op).backend i)
    rw [health_apply]
    rcases backend_apply_cases hok i with ⟨_, heq⟩ | ⟨_, hb⟩
    · rw [heq]
      rcases p.effect_probe_cases op i with ⟨_, hkeep⟩ | ⟨now, live, _, hdue, heff⟩
      · have hhealthy : (p.effect op i (p.backend i)).healthy = (p.backend i).healthy :=
          congrArg Backend.Probing.healthy hkeep
        unfold CountsZero
        rw [hkeep, hhealthy]
        exact hp
      · rw [heff]
        exact countsZero_runHealthCheck hdue live
    · exact hfresh hb

/-- The reply that changes the health finds room in its counter: a full one would be
cleared by a threshold of zero only, and that counts nothing. -/
theorem count_lt_of_changesHealth {p : Pool} (h : p.Reachable) {i : Nat} {live : Bool}
    (hchange : (p.backend i).changesHealth p.health live = true) :
    (p.backend i).probing.count live + 1 < 2 ^ 32 := by
  have hlt : (p.backend i).probing.count live < 2 ^ 32 :=
    RunLength.value_lt_of_reachable h i (.probes live)
  obtain ⟨hne, hle⟩ : live ≠ (p.backend i).healthy ∧
      p.health.probeThreshold live ≤ incr32 ((p.backend i).probing.count live) := by
    simpa [Backend.changesHealth] using hchange
  by_contra hfull
  have hlast : (p.backend i).probing.count live + 1 = 2 ^ 32 := by omega
  have hwrap : incr32 ((p.backend i).probing.count live) = 0 := by
    rw [incr32, hlast]
    exact Nat.mod_self _
  rw [hwrap] at hle
  have hzero := countsZero_of_reachable h i live hne.symm (Nat.le_zero.mp hle)
  rw [hzero] at hlast
  exact absurd hlast (by decide)

/-- An increment that the source computes overflows exactly if the counter wraps. -/
theorem fits_iff {p : Pool} (h : p.Reachable) (op : Op) (i : Nat) (c : RunLength) :
    (c.raises i p op = true → c.value (p.backend i) < u32Max) ↔ (c.counter i).Fits p op := by
  have hmax : c.value (p.backend i) < u32Max ↔ c.value (p.backend i) + 1 < 2 ^ 32 := by
    unfold u32Max
    omega
  rw [hmax]
  cases c with
  | ewmaSamples =>
    simp only [RunLength.raises, Counter.Fits, RunLength.counter, RunLength.tick]
    cases latencySample i p op <;> simp
  | outlierFailures =>
    simp only [RunLength.raises, Counter.Fits, RunLength.counter, RunLength.tick]
    cases failsFrom i 0 op <;> split_ifs <;> simp_all
  | probes live =>
    simp only [RunLength.raises, Counter.Fits, RunLength.counter, RunLength.tick]
    cases hreply : probeReply i p op with
    | none => simp
    | some reply =>
      by_cases heq : reply = live
      · subst heq
        cases hchange : (p.backend i).changesHealth p.health reply with
        | false => simp
        | true =>
          have hlt : (RunLength.probes reply).value (p.backend i) + 1 < 2 ^ 32 :=
            count_lt_of_changesHealth h hchange
          simpa using hlt
      · simp [heq]

/-! ## What a run promises of the counters -/

/-- The counters of backend `i` are exact over a run. -/
structure CountersExact (i : Nat) (p₀ : Pool) (ops : List Op) : Prop where
  /-- No increment overflows. -/
  noOverflow : ∀ c : RunLength,
    poolSystem.Always (fun p op => c.raises i p op = true → c.value (p.backend i) < u32Max)
      p₀ ops
  /-- The sample count is the number of latencies recorded. -/
  samples : ∀ pre, pre <+: ops →
    ((poolSystem.exec p₀ pre).backend i).ewmaSamples =
      (poolSystem.events (latencySample i) p₀ pre).length
  /-- While a window that the poll at `s` opened is open, the fresh samples are the ones
  recorded since that poll. -/
  fresh : ∀ pre s mid, pre ++ Op.poll s :: mid <+: ops →
    ((poolSystem.exec p₀ pre).backend i).overSince = none →
    (∀ as, as <+: mid →
      ((poolSystem.exec p₀ (pre ++ Op.poll s :: as)).backend i).overSince = some s) →
    ((poolSystem.exec p₀ (pre ++ Op.poll s :: mid)).backend i).ewmaSamples -
        ((poolSystem.exec p₀ (pre ++ Op.poll s :: mid)).backend i).overSinceSamples =
      (poolSystem.events (latencySample i) (poolSystem.exec p₀ (pre ++ [Op.poll s]))
        mid).length

/-- What the sample count stands for. -/
theorem tally_ewmaSamples (i : Nat) (p₀ : Pool) (ops : List Op) :
    (RunLength.ewmaSamples.counter i).tally p₀ ops =
      (poolSystem.events (latencySample i) p₀ ops).length := by
  induction ops using List.reverseRecOn with
  | nil => rfl
  | append_singleton ops op ih =>
    rw [Counter.tally_concat, ih, System.events_concat]
    simp only [RunLength.counter, RunLength.tick]
    cases latencySample i (poolSystem.exec p₀ ops) op <;> simp

/-- The sample count is the number of recorded latencies, modulo `2 ^ 32`. -/
theorem ewmaSamples_exec {p₀ : Pool} (h₀ : poolSystem.init p₀) {ops : List Op}
    (hv : poolSystem.Valid p₀ ops) (i : Nat) :
    ((poolSystem.exec p₀ ops).backend i).ewmaSamples =
      (poolSystem.events (latencySample i) p₀ ops).length % 2 ^ 32 := by
  rw [← tally_ewmaSamples]
  exact (RunLength.ewmaSamples.counter i).value_exec (RunLength.value_new h₀ i .ewmaSamples) hv

/-- While a window stays open, its snapshot of the sample count stays. -/
theorem overSinceSamples_exec {p₀ : Pool} {i s : Nat} {pre mid : List Op}
    (hv : poolSystem.Valid p₀ (pre ++ Op.poll s :: mid))
    (hnone : ((poolSystem.exec p₀ pre).backend i).overSince = none)
    (hopen : ∀ as, as <+: mid →
      ((poolSystem.exec p₀ (pre ++ Op.poll s :: as)).backend i).overSince = some s) :
    ((poolSystem.exec p₀ (pre ++ Op.poll s :: mid)).backend i).overSinceSamples =
      ((poolSystem.exec p₀ pre).backend i).ewmaSamples := by
  induction mid using List.reverseRecOn with
  | nil =>
    have hs := hopen [] (List.prefix_refl [])
    have hok : (poolSystem.exec p₀ pre).Accepts (.poll s) := hv.right.1
    rw [exec_concat] at hs ⊢
    rcases overSince_apply hok hs with ⟨_, _, hsnap⟩ | ⟨hold, _⟩
    · exact hsnap
    · exact absurd (hnone.symm.trans hold) (by simp)
  | append_singleton mid op ih =>
    have hsplit : pre ++ Op.poll s :: (mid ++ [op]) = pre ++ Op.poll s :: mid ++ [op] := by simp
    have hs := hopen (mid ++ [op]) (List.prefix_refl _)
    have hbefore := hopen mid (List.prefix_append mid [op])
    rw [hsplit] at hv hs ⊢
    rw [exec_concat] at hs ⊢
    have hold := ih hv.left fun as has => hopen as (has.trans (List.prefix_append mid [op]))
    have hok : (poolSystem.exec p₀ (pre ++ Op.poll s :: mid)).Accepts op := hv.right.1
    rcases overSince_apply hok hs with ⟨_, hclosed, _⟩ | ⟨_, hsnap⟩
    · exact absurd (hclosed.symm.trans hbefore) (by simp)
    · exact hsnap.trans hold

/-- The counters of a backend are exact over a run of a new pool exactly if each counts to
less than `2 ^ 32`, at every moment of the run:

* fewer latencies than that are recorded on the backend,
* fewer failures come without a success and without a poll that reinstates the backend
  between them,
* and fewer equal replies come without the other reply and without one that changes the
  health between them. -/
theorem counters_exact_iff {p₀ : Pool} (h₀ : poolSystem.init p₀) {ops : List Op}
    (hv : poolSystem.Valid p₀ ops) (i : Nat) :
    CountersExact i p₀ ops ↔
      ∀ (c : RunLength) (pre : List Op), pre <+: ops →
        (c.counter i).tally p₀ pre < 2 ^ 32 := by
  have hreach : p₀.Reachable := ⟨p₀, [], h₀, trivial, rfl⟩
  have hfits : ∀ c : RunLength, _ ↔ _ := fun c =>
    (System.Reachable.always_congr (fun p op hp _ => fits_iff hp op i c) hreach hv).trans
      ((c.counter i).always_fits_iff (by decide) (RunLength.value_new h₀ i c) hv)
  constructor
  · intro h c
    exact (hfits c).mp (h.noOverflow c)
  · intro h
    have hsamples : ∀ pre, pre <+: ops →
        ((poolSystem.exec p₀ pre).backend i).ewmaSamples =
          (poolSystem.events (latencySample i) p₀ pre).length := by
      rintro pre ⟨post, rfl⟩
      have hlt := h .ewmaSamples pre (List.prefix_append pre post)
      rw [tally_ewmaSamples] at hlt
      exact (ewmaSamples_exec h₀ hv.left i).trans (Nat.mod_eq_of_lt hlt)
    refine ⟨fun c => (hfits c).mpr (h c), hsamples, ?_⟩
    rintro pre s mid ⟨post, rfl⟩ hnone hopen
    have hopened := hsamples pre ⟨Op.poll s :: mid ++ post, by simp⟩
    rw [hsamples _ (List.prefix_append _ post), overSinceSamples_exec hv.left hnone hopen, hopened,
      List.append_cons, System.events_append, System.events_concat]
    simp [latencySample]

/-- Two recorded latencies, a bad reply and two failures. -/
theorem counters_exact_iff_few :
    let p₀ := Pool.new "api" .roundRobin .default
    let ops : List Op := [.enableEwma .default, .addBackend (.new "a" 1 .default .default),
      .recordSuccessLatency 0 0 5, .recordFailure 0 0, .recordSuccessLatency 0 1 5,
      .runHealthChecks 2 fun _ => false, .recordFailure 0 3]
    CountersExact 0 p₀ ops := by
  intro p₀ ops
  have hlt : 0 < 1 := by decide
  have hv : poolSystem.Valid p₀ ops :=
    ⟨trivial, ⟨.default, .default, rfl⟩, hlt, hlt, hlt, trivial, hlt, trivial⟩
  refine (counters_exact_iff ⟨"api", .roundRobin, .default, rfl⟩ hv 0).mpr fun c pre hpre => ?_
  exact ((c.counter 0).tally_le_length p₀ pre).trans_lt (hpre.length_le.trans_lt (by decide))

/-- One backend with the latency layer, and `n` successes with a latency. -/
def busyCalls (n : Nat) : List Op :=
  [.enableEwma .default, .addBackend (.new "a" 1 .default .default)] ++
    List.replicate n (.recordSuccessLatency 0 0 1)

/-- Each success is accepted, and its latency is recorded. -/
theorem busy_replicate {cfg : EwmaConfig} {p : Pool} (he : p.ewma = some cfg)
    (hi : 0 < p.backends.length) (n : Nat) :
    poolSystem.Valid p (List.replicate n (.recordSuccessLatency 0 0 1)) ∧
      (poolSystem.events (latencySample 0) p
        (List.replicate n (.recordSuccessLatency 0 0 1))).length = n := by
  induction n generalizing p with
  | zero => exact ⟨trivial, rfl⟩
  | succ n ih =>
    have hewma : (p.apply (.recordSuccessLatency 0 0 1)).ewma = some cfg :=
      (ewma_apply p _ (by simp)).trans he
    obtain ⟨hv, hlen⟩ := ih hewma (Nat.lt_of_lt_of_le hi (p.length_le_apply _))
    have hone : (latencySample 0 p (.recordSuccessLatency 0 0 1)).toList.length = 1 := by
      simp [latencySample, he]
    rw [List.replicate_succ]
    refine ⟨⟨hi, hv⟩, ?_⟩
    rw [System.events, List.length_append, hone, Nat.add_comm]
    exact congrArg (· + 1) hlen

theorem busyCalls_succ (n : Nat) :
    busyCalls (n + 1) = busyCalls n ++ [.recordSuccessLatency 0 0 1] := by
  rw [busyCalls, busyCalls, List.replicate_succ', List.append_assoc]

theorem busyCalls_spec (n : Nat) :
    let p₀ := Pool.new "api" .roundRobin .default
    poolSystem.Valid p₀ (busyCalls n) ∧
      (poolSystem.events (latencySample 0) p₀ (busyCalls n)).length = n ∧
      ((poolSystem.exec p₀ (busyCalls n)).backend 0).ewmaSamples = n % 2 ^ 32 := by
  intro p₀
  obtain ⟨hv, hlen⟩ := busy_replicate (p := poolSystem.exec p₀
    [.enableEwma .default, .addBackend (.new "a" 1 .default .default)]) rfl Nat.one_pos n
  have hvalid : poolSystem.Valid p₀ (busyCalls n) :=
    (System.valid_append_iff _ _ _ _).mpr ⟨⟨trivial, ⟨.default, .default, rfl⟩, trivial⟩, hv⟩
  have hevents : (poolSystem.events (latencySample 0) p₀ (busyCalls n)).length = n := by
    rw [busyCalls, System.events_append, List.length_append, hlen]
    exact Nat.zero_add n
  have hvalue := ewmaSamples_exec ⟨"api", .roundRobin, .default, rfl⟩ hvalid 0
  rw [hevents] at hvalue
  exact ⟨hvalid, hevents, hvalue⟩

/-- The last of `2 ^ 32` latencies takes a sample count that is more than enough back to
zero, and the backend is no longer scored. -/
theorem busy_counter_wraps :
    let p₀ := Pool.new "api" .roundRobin .default
    poolSystem.Valid p₀ (busyCalls (2 ^ 32)) ∧
      (poolSystem.events (latencySample 0) p₀ (busyCalls (2 ^ 32))).length = 2 ^ 32 ∧
      busyCalls (2 ^ 32 - 1) ++ [.recordSuccessLatency 0 0 1] = busyCalls (2 ^ 32) ∧
      EwmaConfig.default.minSamples ≤
        ((poolSystem.exec p₀ (busyCalls (2 ^ 32 - 1))).backend 0).ewmaSamples ∧
      ((poolSystem.exec p₀ (busyCalls (2 ^ 32))).backend 0).ewmaSamples <
        EwmaConfig.default.minSamples ∧
      ¬ CountersExact 0 p₀ (busyCalls (2 ^ 32)) := by
  intro p₀
  obtain ⟨hv, hlen, hvalue⟩ := busyCalls_spec (2 ^ 32)
  obtain ⟨_, _, hbefore⟩ := busyCalls_spec (2 ^ 32 - 1)
  have hzero : ((poolSystem.exec p₀ (busyCalls (2 ^ 32))).backend 0).ewmaSamples = 0 :=
    hvalue.trans (Nat.mod_self _)
  refine ⟨hv, hlen, ?_, ?_, ?_, ?_⟩
  · exact (busyCalls_succ (2 ^ 32 - 1)).symm
  · rw [hbefore]
    decide
  · rw [hzero]
    decide
  · intro h
    have hsamples := h.samples _ (List.prefix_refl _)
    rw [hlen, hzero] at hsamples
    exact absurd hsamples (by decide)

end Pool

end Echofront
