import Echofront.Router
import Echofront.Lib.Pick

/-!
# Longest segment prefix

`Router::route` scans the table once.  This module says what it answers, without the
scan: the service of the matching route with the greatest key, the last added one
among equals.

* `Route.Admits` says when a route matches, segment by segment, and `matches_iff`
  that the code decides it.
* `keyLe_iff` reads the key as a pair in lexicographic order, and `Wins` is the
  winner of a table.
* `route_eq_some_iff` and `route_eq_none_iff` are the spec of `route`, and
  `route_longest_prefix` what follows for routes that join the table and for tables in
  another order.
-/

namespace Echofront

open Lib

/-! ## Matching -/

/-- The prefix completed by one `/`, unless it ends with one. -/
def segment (pre : String) : List Char :=
  if pre.toList.getLast? = some '/' then pre.toList else pre.toList ++ ['/']

/-- The first byte of a character is the byte of `/` only for the character `/`. -/
theorem head?_utf8EncodeChar_eq_slash (c : Char) :
    (String.utf8EncodeChar c).head? = some 0x2F ↔ c = '/' := by
  constructor
  · intro h
    have hbyte : ∀ n, some (UInt8.ofNat n) = some 0x2F → n % 256 = 0x2F := fun n hn => by
      have hto := congrArg UInt8.toNat (Option.some.inj hn)
      simpa using hto
    have hval : c.val.toNat = 0x2F := by
      unfold String.utf8EncodeChar at h
      simp only at h
      split_ifs at h <;> have hmod := hbyte _ h <;> omega
    exact Char.ext (UInt32.toNat_inj.mp hval)
  · intro h
    rw [h]
    rfl

theorem exists_head_utf8EncodeChar (c : Char) :
    ∃ b, (String.utf8EncodeChar c).head? = some b ∧ (b = 0x2F ↔ c = '/') := by
  obtain ⟨b, bs, hbytes⟩ := List.exists_cons_of_ne_nil (String.utf8EncodeChar_ne_nil (c := c))
  have hhead : (String.utf8EncodeChar c).head? = some b := by rw [hbytes]; rfl
  refine ⟨b, hhead, ?_⟩
  rw [← head?_utf8EncodeChar_eq_slash, hhead, Option.some_inj]

/-- Where a prefix ends and the path goes on is a boundary of characters: the byte there is
the first one of the next character, if there is one. -/
theorem getElem?_asBytes_append (pre : String) (rest : List Char) :
    (asBytes (.ofList (pre.toList ++ rest)))[(asBytes pre).length]? =
      rest.head?.bind (fun c => (String.utf8EncodeChar c).head?) := by
  have hpre : asBytes pre = asBytes (.ofList pre.toList) := by rw [String.ofList_toList]
  rw [hpre, asBytes_append, List.getElem?_append_right (Nat.le_refl _), Nat.sub_self,
    ← List.head?_eq_getElem?]
  cases rest with
  | nil => simp [asBytes]
  | cons c rest =>
    have hne : String.utf8EncodeChar c ≠ [] := String.utf8EncodeChar_ne_nil
    rw [asBytes, String.toList_ofList, List.flatMap_cons, List.head?_append_of_ne_nil _ hne]
    rfl

theorem segment_cases (pre : String) :
    (pre.toList.getLast? = some '/' ∧ segment pre = pre.toList) ∨
    (pre.toList.getLast? ≠ some '/' ∧ segment pre = pre.toList ++ ['/']) := by
  unfold segment
  split_ifs with h
  · exact Or.inl ⟨h, rfl⟩
  · exact Or.inr ⟨h, rfl⟩

theorem prefix_segment (pre : String) : pre.toList <+: segment pre := by
  rcases segment_cases pre with ⟨_, h⟩ | ⟨_, h⟩
  · exact h.symm ▸ List.prefix_refl pre.toList
  · exact h.symm ▸ List.prefix_append pre.toList ['/']

/-- A prefix matches a path when it is `/`, when it is the head of the path, or when
the head goes on after it with a `/`. -/
theorem pathPrefixMatches_iff (pre path : String) :
    pathPrefixMatches pre path = true ↔
      pre = "/" ∨ pre.toList = pathHead path ∨ segment pre <+: pathHead path := by
  unfold pathPrefixMatches
  generalize pathHead path = head
  by_cases hroot : pre = "/"
  · simp [hroot]
  · by_cases hpre : pre.toList <+: head
    · obtain ⟨rest, rfl⟩ := hpre
      have hp : pre.toList.isPrefixOf (pre.toList ++ rest) = true :=
        List.isPrefixOf_iff_prefix.mpr (List.prefix_append _ _)
      simp only [hroot, if_false, hp, Bool.not_true, Bool.false_eq_true,
        getElem?_asBytes_append, false_or]
      -- what follows the prefix decides, then whether it ends with a `/` itself
      rcases segment_cases pre with ⟨hlast, hseg⟩ | ⟨hlast, hseg⟩
      · rw [hseg]
        cases rest with
        | nil => simp
        | cons c rest =>
          obtain ⟨b, hb, _⟩ := exists_head_utf8EncodeChar c
          simp [hb, hlast]
      · rw [hseg, List.prefix_append_right_inj]
        cases rest with
        | nil => simp
        | cons c rest =>
          obtain ⟨b, hb, hslash⟩ := exists_head_utf8EncodeChar c
          have hsym : '/' = c ↔ c = '/' := eq_comm
          simp [hb, hslash, hlast, hsym]
    · have hseg : ¬ segment pre <+: head := fun h => hpre ((prefix_segment pre).trans h)
      have hne : pre.toList ≠ head := fun h => hpre (h ▸ List.prefix_refl _)
      have hp : pre.toList.isPrefixOf head = false := by
        rw [Bool.eq_false_iff]
        exact fun h => hpre (List.isPrefixOf_iff_prefix.mp h)
      simp [hroot, hp, hseg, hne]

namespace Route

/-- Whether a route admits a request: its host is the one of the request, if it names
one, and its prefix ends where a segment of the path ends. -/
def Admits (r : Route) (req : Request) : Prop :=
  (∀ h, r.host = some h → ∃ rh, req.host = some rh ∧ eqIgnoreAsciiCase rh h = true) ∧
    (r.pathPrefix = "/" ∨ r.pathPrefix.toList = pathHead req.path ∨
      segment r.pathPrefix <+: pathHead req.path)

theorem matches_iff (r : Route) (req : Request) : r.matches req = true ↔ r.Admits req := by
  unfold Route.matches Admits
  rw [← pathPrefixMatches_iff]
  cases hh : r.host with
  | none => simp
  | some h =>
    cases hr : req.host with
    | none => simp
    | some rh => simp

/-- The order of the keys is the lexicographic one. -/
theorem keyLe_iff (a b : Nat × Bool) : keyLe a b = true ↔ toLex a ≤ toLex b := by
  rw [Prod.Lex.toLex_le_toLex]
  cases ha : a.2 <;> cases hb : b.2 <;> simp [keyLe, ha, hb]

/-- A route that is kept so far is replaced by one with a key that is not less. -/
def Replaces (a b : Route) : Prop := keyLe a.key b.key = true

instance : DecidableRel Replaces := fun a b =>
  inferInstanceAs (Decidable (keyLe a.key b.key = true))

theorem replaces_iff (a b : Route) : a.Replaces b ↔ toLex a.key ≤ toLex b.key :=
  keyLe_iff a.key b.key

theorem replaces : Lib.Replaces Replaces where
  trans h h' := by
    rw [replaces_iff] at h h' ⊢
    exact h.trans h'
  of_not h h' := by
    rw [replaces_iff] at h h' ⊢
    exact (not_le.mp h).le.trans h'

end Route

namespace Router

/-! ## The winner of a table -/

/-- The winner of a table for a request: the last of the routes with the greatest
key, among those that admit it. -/
def Wins (routes : List Route) (req : Request) (w : Route) : Prop :=
  w.Admits req ∧ ∃ pre post, routes = pre ++ w :: post ∧
    (∀ r ∈ pre, r.Admits req → toLex r.key ≤ toLex w.key) ∧
    ∀ r ∈ post, r.Admits req → toLex r.key < toLex w.key

theorem filter_matches_cons {w : Route} {req : Request} (hw : w.Admits req)
    (routes : List Route) :
    (w :: routes).filter (·.matches req) = w :: routes.filter (·.matches req) :=
  List.filter_cons_of_pos (p := fun r : Route => r.matches req) ((Route.matches_iff w req).mpr hw)

/-- The winner is what the scan of the matching routes picks. -/
theorem wins_iff_picked {routes : List Route} {req : Request} {w : Route} :
    Wins routes req w ↔ Picked Route.Replaces (routes.filter (·.matches req)) w := by
  constructor
  · intro h
    obtain ⟨hw, pre, post, rfl, hpre, hpost⟩ := h
    refine ⟨pre.filter (·.matches req), post.filter (·.matches req), ?_, ?_, ?_⟩
    · rw [List.filter_append, filter_matches_cons hw]
    · intro r hr
      obtain ⟨hr, hm⟩ := List.mem_filter.mp hr
      exact (Route.replaces_iff r w).mpr (hpre r hr ((Route.matches_iff r req).mp hm))
    · intro r hr
      obtain ⟨hr, hm⟩ := List.mem_filter.mp hr
      rw [Route.replaces_iff, not_le]
      exact hpost r hr ((Route.matches_iff r req).mp hm)
  · intro h
    obtain ⟨pre', post', heq, hpre, hpost⟩ := h
    obtain ⟨pre, rest, rfl, rfl, hrest⟩ := List.filter_eq_append_iff.mp heq
    obtain ⟨skip, post, rfl, hskip, hw, rfl⟩ := List.filter_eq_cons_iff.mp hrest
    have hmatch : ∀ {r : Route}, r.Admits req → r.matches req = true :=
      fun {r} => (Route.matches_iff r req).mpr
    refine ⟨(Route.matches_iff w req).mp hw, pre ++ skip, post, by simp, ?_, ?_⟩
    · intro r hr ha
      rcases List.mem_append.mp hr with hr | hr
      · exact (Route.replaces_iff r w).mp (hpre r (List.mem_filter.mpr ⟨hr, hmatch ha⟩))
      · exact absurd (hmatch ha) (hskip r hr)
    · intro r hr ha
      have hnot := hpost r (List.mem_filter.mpr ⟨hr, hmatch ha⟩)
      rwa [Route.replaces_iff, not_le] at hnot

theorem Wins.mem {routes : List Route} {req : Request} {w : Route} (h : Wins routes req w) :
    w ∈ routes := by
  obtain ⟨_, pre, post, rfl, _, _⟩ := h
  simp

/-- No route that admits the request has a greater key than the winner. -/
theorem Wins.key_le {routes : List Route} {req : Request} {w r : Route}
    (h : Wins routes req w) (hr : r ∈ routes) (ha : r.Admits req) :
    toLex r.key ≤ toLex w.key := by
  obtain ⟨_, pre, post, rfl, hpre, hpost⟩ := h
  rcases List.mem_append.mp hr with hr | hr
  · exact hpre r hr ha
  · rcases List.mem_cons.mp hr with rfl | hr
    · exact le_refl _
    · exact (hpost r hr ha).le

theorem Wins.unique {routes : List Route} {req : Request} {v w : Route}
    (hv : Wins routes req v) (hw : Wins routes req w) : v = w :=
  (wins_iff_picked.mp hv).unique (wins_iff_picked.mp hw)

/-! ## The scan -/

theorem foldl_keepMax_some (routes : List Route) (b : Route) :
    routes.foldl keepMax (some b) = some (routes.foldl (keep Route.Replaces) b) := by
  induction routes generalizing b with
  | nil => rfl
  | cons r routes ih =>
    have hstep : keepMax (some b) r = some (keep Route.Replaces b r) := by
      by_cases hle : Route.keyLe b.key r.key = true <;>
        simp [keepMax, keep, Route.Replaces, hle]
    rw [List.foldl_cons, List.foldl_cons, hstep, ih]

/-- A table that some route admits a request of has a winner, and its service is the
answer. -/
theorem route_cases (t : Router) (req : Request) :
    (t.route req = none ∧ ∀ r ∈ t.routes, ¬ r.Admits req) ∨
    ∃ w, Wins t.routes req w ∧ t.route req = some w.service := by
  unfold route
  cases hm : t.routes.filter (·.matches req) with
  | nil =>
    refine Or.inl ⟨rfl, fun r hr ha => ?_⟩
    have hmem : r ∈ t.routes.filter (·.matches req) :=
      List.mem_filter.mpr ⟨hr, (Route.matches_iff r req).mpr ha⟩
    rw [hm] at hmem
    simp at hmem
  | cons b routes =>
    refine Or.inr ⟨routes.foldl (keep Route.Replaces) b, ?_, ?_⟩
    · rw [wins_iff_picked, hm]
      exact picked_foldl Route.replaces b routes
    · have hfirst : (b :: routes).foldl keepMax none = routes.foldl keepMax (some b) := rfl
      rw [hfirst, foldl_keepMax_some]
      rfl

theorem route_eq_none_iff {t : Router} {req : Request} :
    t.route req = none ↔ ∀ r ∈ t.routes, ¬ r.Admits req := by
  rcases t.route_cases req with ⟨hnone, hall⟩ | ⟨w, hw, hsome⟩
  · exact ⟨fun _ => hall, fun _ => hnone⟩
  · simp only [hsome, reduceCtorEq, false_iff]
    exact fun hall => hall w hw.mem hw.1

theorem route_eq_some_iff {t : Router} {req : Request} {service : String} :
    t.route req = some service ↔ ∃ w, Wins t.routes req w ∧ w.service = service := by
  rcases t.route_cases req with ⟨hnone, hall⟩ | ⟨w, hw, hsome⟩
  · simp only [hnone, reduceCtorEq, false_iff]
    rintro ⟨w, hw, _⟩
    exact hall w hw.mem hw.1
  · rw [hsome]
    constructor
    · intro h
      exact ⟨w, hw, Option.some.inj h⟩
    · rintro ⟨v, hv, rfl⟩
      rw [hw.unique hv]

/-! ## Tables that change -/

/-- A route that does not admit the request, or has a key below the winner's, changes
nothing wherever it joins the table. -/
theorem route_insert {pre post : List Route} {req : Request} {r : Route}
    (h : r.Admits req → ∃ w, Wins (pre ++ post) req w ∧ toLex r.key < toLex w.key) :
    (Router.mk (pre ++ r :: post)).route req = (Router.mk (pre ++ post)).route req := by
  by_cases ha : r.Admits req
  · obtain ⟨w, hw, hlt⟩ := h ha
    have hwins : Wins (pre ++ r :: post) req w := by
      have hpick := wins_iff_picked.mp hw
      rw [List.filter_append] at hpick
      rw [wins_iff_picked, List.filter_append, filter_matches_cons ha]
      refine hpick.insert ?_ ((Route.replaces_iff r w).mpr hlt.le)
      rw [Route.replaces_iff, not_le]
      exact hlt
    rw [route_eq_some_iff.mpr ⟨w, hwins, rfl⟩, route_eq_some_iff.mpr ⟨w, hw, rfl⟩]
  · have hskip : (r :: post).filter (·.matches req) = post.filter (·.matches req) :=
      List.filter_cons_of_neg (p := fun r : Route => r.matches req)
        (fun hm => ha ((Route.matches_iff r req).mp hm))
    simp only [route, List.filter_append, hskip]

/-- The winners of two orders of a table have equal keys. -/
theorem Wins.key_eq_of_perm {routes routes' : List Route} {req : Request} {w w' : Route}
    (hp : routes'.Perm routes) (hw : Wins routes req w) (hw' : Wins routes' req w') :
    w'.key = w.key := by
  have hle := hw.key_le (hp.mem_iff.mp hw'.mem) hw'.1
  have hge := hw'.key_le (hp.mem_iff.mpr hw.mem) hw.1
  exact toLex_inj.mp (le_antisymm hle hge)

/-- Routing is longest segment prefix match.  A route matches exactly when it admits
the request.  The answer is nothing exactly when no route does, and otherwise the
service of the winner: of the greatest pair of prefix length and host, the last added.
So a route that does not admit the request, or has a pair below the winner's, changes
no answer, at the end of the table or anywhere in it; and another order of the table
changes it only among admitted routes with equal pairs. -/
theorem route_longest_prefix (t : Router) (req : Request) :
    (∀ r : Route, r.matches req = true ↔ r.Admits req) ∧
    (t.route req = none ↔ ∀ r ∈ t.routes, ¬ r.Admits req) ∧
    (∀ service, t.route req = some service ↔
      ∃ w, Wins t.routes req w ∧ w.service = service) ∧
    (∀ r : Route, (r.Admits req → ∃ w, Wins t.routes req w ∧ toLex r.key < toLex w.key) →
      (t.add r).route req = t.route req ∧
      ∀ pre post, t.routes = pre ++ post →
        (Router.mk (pre ++ r :: post)).route req = t.route req) ∧
    ∀ t' : Router, t'.routes.Perm t.routes →
      (t'.route req = none ↔ t.route req = none) ∧
      ∀ w w', Wins t.routes req w → Wins t'.routes req w' →
        w'.Admits req ∧ w'.key = w.key := by
  refine ⟨fun r => r.matches_iff req, route_eq_none_iff, fun _ => route_eq_some_iff,
    fun r h => ?_, fun t' hp => ⟨?_, fun w w' hw hw' => ⟨hw'.1, hw.key_eq_of_perm hp hw'⟩⟩⟩
  · have hjoin : ∀ pre post, t.routes = pre ++ post →
        (Router.mk (pre ++ r :: post)).route req = t.route req := by
      intro pre post heq
      rw [heq] at h
      rw [route_insert h, ← heq]
    exact ⟨hjoin t.routes [] (by simp), hjoin⟩
  · rw [route_eq_none_iff, route_eq_none_iff]
    constructor
    · intro hall r hr
      exact hall r (hp.mem_iff.mpr hr)
    · intro hall r hr
      exact hall r (hp.mem_iff.mp hr)

/-- A path right after the prefix, a look-alike sibling and a longer prefix. -/
example :
    let t : Router := ⟨[.new none "/" "root", .new none "/api" "api", .new none "/api/v2" "v2"]⟩
    ["/api?q=1", "/apixyz", "/api/v2/x", "/api/v2x"].map (fun path => t.route (.new .get path)) =
      [some "api", some "root", some "v2", some "api"] := by
  decide

end Router

end Echofront
