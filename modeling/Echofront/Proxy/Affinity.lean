import Echofront.Lib.Choice
import Echofront.Pool.Sticky
import Echofront.Proxy.Order
import Echofront.Proxy.Recovery

/-!
# Sticky sessions

Under the consistent hash a key has one order of preference over all backends of a pool,
`Pool.affinity`, that depends on their names only.  The lookup in the ring does not depend
on irrelevant alternatives (`isChoice_favourite`), so the backends that a request asks are
those of the order that are available, from its head on (`failoverOrder_eq_affinity`).

`sticky_order` is the result for sessions: whatever happened before, a request with the
key follows the one order, and backends that join the pool later only take places between
the others.
-/

namespace Echofront

open Lib

namespace Pool

/-- The choice of the ring for `key` among the backends `is`. -/
def favourite (p : Pool) (key : String) (is : List Nat) : Option Nat :=
  ((ConsistentHashRing.new 160).rebuild (p.ringMembers is)).lookup key

/-- All backends in the order in which the ring prefers them for `key`. -/
def affinity (p : Pool) (key : String) : List Nat :=
  picks (p.favourite key) p.backends.length (List.range p.backends.length)

/-- Ascending lists of backends with one of them inside the other. -/
theorem sublist_range_of_pairwise {is : List Nat} {n : Nat} (h : is.Pairwise (· < ·))
    (hlt : ∀ i ∈ is, i < n) : is.Sublist (List.range n) := by
  rw [eq_filter_of_subset List.pairwise_lt_range h
    (fun i hi => List.mem_range.mpr (hlt i hi))]
  exact List.filter_sublist

/-- What the ring chooses does not depend on the backends that it does not choose. -/
theorem isChoice_favourite (p : Pool) (key : String) (n : Nat) :
    IsChoice (p.favourite key) (List.range n) where
  nil := rfl
  mem := by
    intro ys _ hne
    have hmembers : p.ringMembers ys ≠ [] := by simpa [ringMembers] using hne
    have hempty := ConsistentHashRing.isEmpty_rebuild
      (ConsistentHashRing.vnodes_new 160) hmembers
    obtain ⟨e, he, hl⟩ := ConsistentHashRing.lookup_mem hempty key
    have hmem := ConsistentHashRing.mem_rebuild he
    rw [ringMembers_fst] at hmem
    exact ⟨e.2, hmem, hl⟩
  keep := by
    intro ys zs x hz hy hc hx
    have hzs : zs.Pairwise (· < ·) := List.pairwise_lt_range.sublist hz
    have heq := eq_filter_of_subset hzs (hzs.sublist hy) (fun i hi => hy.subset hi)
    unfold favourite at hc ⊢
    rw [heq, ringMembers_filter]
    refine ConsistentHashRing.lookup_rebuild_filter hc (fun m _ hm => ?_)
    rw [hm]
    exact decide_eq_true hx

theorem affinity_perm (p : Pool) (key : String) :
    (p.affinity key).Perm (List.range p.backends.length) :=
  (p.isChoice_favourite key _).picks_perm List.nodup_range (by simp)

/-- Under the consistent hash the order of failover is what the ring picks. -/
theorem failoverOrder_eq_picks {p : Pool} (h : p.Reachable) (hs : p.strategy = .consistentHash)
    (now : Nat) (key : String) (n : Nat) (tried : List Nat) :
    p.failoverOrder now (some key) n tried =
      picks (p.favourite key) n (p.candidates now tried) := by
  induction n generalizing p tried with
  | zero => rfl
  | succ n ih =>
    have hcand : p.candidates now tried = p.availableIndices now tried := by
      simp only [candidates, hs]
    have hpick : (p.select now (some key) tried).1 =
        p.favourite key (p.candidates now tried) := by
      rw [hcand]
      exact select_eq_lookup h hs now key tried
    cases hsel : (p.select now (some key) tried).1 with
    | none =>
      rw [failoverOrder_of_none hsel, select_eq_none_iff.mp hsel, picks_nil rfl]
    | some i =>
      have hframe := p.selectFrame_select now (some key) tried
      have hreach : (p.select now (some key) tried).2.Reachable :=
        System.Reachable.step (M := poolSystem) (a := .select now (some key) tried) h trivial
      -- the selection keeps the names and with them the choices of the ring
      have hfav : (p.select now (some key) tried).2.favourite key = p.favourite key := by
        funext is
        have hmembers : (p.select now (some key) tried).2.ringMembers is = p.ringMembers is :=
          List.map_congr_left (fun i _ => by rw [hframe.backend_eq i])
        rw [favourite, hmembers, favourite]
      rw [failoverOrder_of_some hsel, picks_of_some (hpick.symm.trans hsel),
        ih hreach (hframe.strategy.trans hs), hfav, hframe.candidates, candidates_concat]

/-- A request asks the available backends in the order of preference of its key. -/
theorem failoverOrder_eq_affinity {p : Pool} (h : p.Reachable)
    (hs : p.strategy = .consistentHash) (now : Nat) (key : String) {n : Nat}
    {tried : List Nat} (hn : (p.candidates now tried).length ≤ n) :
    p.failoverOrder now (some key) n tried =
      (p.affinity key).filter (· ∈ p.candidates now tried) := by
  have hcand : p.candidates now tried = p.availableIndices now tried := by
    simp only [candidates, hs]
  have hsub : (p.candidates now tried).Sublist (List.range p.backends.length) := by
    rw [hcand]
    exact sublist_range_of_pairwise (p.pairwise_availableIndices now tried)
      (fun i hi => (mem_availableIndices.mp hi).1)
  rw [failoverOrder_eq_picks h hs]
  exact (p.isChoice_favourite key _).picks_sublist hsub (by simp) hn

/-- Over a run the order of preference only gets longer: the backends that were there
keep their order. -/
theorem affinity_exec (p : Pool) (key : String) (ops : List Op) :
    ((poolSystem.exec p ops).affinity key).filter (· < p.backends.length) =
      p.affinity key := by
  have hle := length_le_exec p ops
  have hsub : (List.range p.backends.length).Sublist
      (List.range (poolSystem.exec p ops).backends.length) := List.range_sublist.mpr hle
  have hpicks := ((poolSystem.exec p ops).isChoice_favourite key _).picks_sublist
    (n := p.backends.length) hsub (Nat.le_of_eq List.length_range)
    (Nat.le_of_eq List.length_range)
  have hsame : picks ((poolSystem.exec p ops).favourite key) p.backends.length
      (List.range p.backends.length) = p.affinity key := by
    refine picks_congr (fun is hs => ?_) _
    have hlt : ∀ i ∈ is, i < p.backends.length := fun i hi =>
      List.mem_range.mp (hs.subset hi)
    rw [favourite, ringMembers_exec ops hlt, favourite]
  rw [← hsame, hpicks]
  simp only [List.mem_range]
  rfl

/-- Without a new backend it stays as it is. -/
theorem affinity_exec_of_length {p : Pool} {ops : List Op}
    (h : (poolSystem.exec p ops).backends.length = p.backends.length) (key : String) :
    (poolSystem.exec p ops).affinity key = p.affinity key := by
  rw [← p.affinity_exec key ops]
  refine (List.filter_eq_self.mpr (fun i hi => ?_)).symm
  have hmem := ((poolSystem.exec p ops).affinity_perm key).subset hi
  rw [h, List.mem_range] at hmem
  exact decide_eq_true hmem

end Pool

namespace Proxy

open HandleLoop (failingHead)

/-- Sticky sessions follow one order of preference.  For a key the ring orders all
backends of the pool by their names alone.  Whatever a session does, a later request with
the key asks the available backends in this order, from its head on and as far as the
replies and the retries take it; the backends that have joined since then have their
places in the order and leave that of the others as it was. -/
theorem sticky_order {px : Proxy} (h : px.Reachable) {service : String} {pool : Pool}
    (hpool : px.pools service = some pool) {ops : List SessionOp}
    (hv : sessionSystem.Valid px ops) (hkeep : ∀ op ∈ ops, op.Keeps service) {pool' : Pool}
    (hpool' : (sessionSystem.exec px ops).pools service = some pool')
    (hs : pool'.strategy = .consistentHash) {req : Request}
    (hroute : px.router.route req = some service) {key : String}
    (hkey : (sessionSystem.exec px ops).stickyKey req = some key) (now : Nat)
    (replies : Nat → UpstreamReply) :
    let order := (pool'.affinity key).filter (· ∈ (pool'.poll now).candidates now [])
    (pool.affinity key).Perm (List.range pool.backends.length) ∧
      (pool'.affinity key).filter (· < pool.backends.length) = pool.affinity key ∧
      ∃ r px', (sessionSystem.exec px ops).handle now req replies = some (r, px') ∧
        r.attempts.map Attempt.backend = order.take
          (min (failingHead replies order) (sessionSystem.exec px ops).retriesAllowed + 1) := by
  intro order
  have hreach := reachable_exec h hv
  have hp := poolsOk_of_reachable hreach
  obtain ⟨_, hexec, _⟩ := pools_exec h hpool hv hkeep
  have hrun : pool' = poolSystem.exec pool (sessionSystem.calls (callsOf service) px ops) :=
    Option.some.inj (hpool'.symm.trans hexec)
  refine ⟨pool.affinity_perm key, hrun ▸ pool.affinity_exec key _, ?_⟩
  have hroute' : (sessionSystem.exec px ops).router.route req = some service := by
    rwa [router_exec h hv]
  obtain ⟨r, px', heq, hplan⟩ := handle_planned hp hroute' hpool' now replies
  have hlen : (pool'.poll now).backends.length = pool'.backends.length := by simp [Pool.poll]
  -- a poll keeps the names, so the order of preference is that of the pool before it
  have haffinity : (pool'.poll now).affinity key = pool'.affinity key := by
    have hrun : (poolSystem.exec pool' [.poll now]).backends.length = pool'.backends.length :=
      hlen
    exact Pool.affinity_exec_of_length hrun key
  have horder : (sessionSystem.exec px ops).failoverOrder pool' now req = order := by
    have hle := length_candidates_le (pool'.poll now) now []
    rw [hlen] at hle
    have hpolled : (pool'.poll now).Reachable :=
      System.Reachable.step (M := poolSystem) (a := .poll now) (hp service pool' hpool') trivial
    have hfollow := Pool.failoverOrder_eq_affinity hpolled hs now key (Nat.le_succ_of_le hle)
    rw [haffinity] at hfollow
    rw [failoverOrder, hkey]
    exact hfollow
  have hasked := hplan.asked
  rw [horder, Nat.sub_zero] at hasked
  exact ⟨r, px', heq, hasked⟩

/-- After a failover of another request a session still asks one backend, the one it
prefers. -/
theorem sticky_order_one :
    let req : Request := { Request.new .get "/" with headers := [("X-Session-Id", "user-1")] }
    let ops : List SessionOp := [.poolCall "api" (.setStrategy .consistentHash),
      .handle 5 (.new .get "/") (fun _ => ⟨.error .timeout, 7⟩)]
    ∃ r px', (sessionSystem.exec twoBackends ops).handle 9 req
        (fun _ => ⟨.ok (.new 200), 3⟩) = some (r, px') ∧
      (r.attempts.map Attempt.backend).length ≤ 1 := by
  intro req ops
  have hv : sessionSystem.Valid twoBackends ops :=
    ⟨⟨.twoBackends, rfl, trivial⟩, trivial, trivial⟩
  have hkeep : ∀ op ∈ ops, op.Keeps "api" := by simp [ops, SessionOp.Keeps]
  have hpool : twoBackends.pools "api" = some .twoBackends := rfl
  have hroute : twoBackends.router.route req = some "api" := by decide
  have hkey : (sessionSystem.exec twoBackends ops).stickyKey req = some "user-1" := by decide
  obtain ⟨_, hpool', _⟩ := pools_exec reachable_twoBackends hpool hv hkeep
  have hs : (poolSystem.exec .twoBackends
      (sessionSystem.calls (callsOf "api") twoBackends ops)).strategy = .consistentHash := by
    decide
  have hsticky := sticky_order reachable_twoBackends hpool hv hkeep hpool' hs hroute hkey 9
    (fun _ => ⟨.ok (.new 200), 3⟩)
  have hhead : ∀ order, failingHead (fun _ => ⟨.ok (.new 200), 3⟩) order = 0 := by
    intro order
    cases order <;> rfl
  simp only [hhead, Nat.zero_min] at hsticky
  obtain ⟨_, _, r, px', heq, hasked⟩ := hsticky
  refine ⟨r, px', heq, ?_⟩
  rw [hasked, List.length_take]
  exact Nat.min_le_left _ _

end Proxy

end Echofront
