import Fion.Router
import Mathlib.Data.List.Forall2

/-!
# The first match

What `findRoute` returns, in terms of segments and capture groups and without
reference to the order in which `matchPattern` writes.  A pattern route takes a path
when the segments of the two agree in pairs (`SegmentTakes`), and then it captures
what stands opposite its parameters (`captures`).  A regex route takes a path when
the compiled pattern does, and its keys are laid over the map that was passed in.

`matchSegments` may have written captures before it fails.  They stay in its own
result: the search returns the captures of the first route that takes the path, and
the map it was given when there is none (`findRoute_first`).
-/

namespace Fion

open Cpp (Bytes Exn ascii chr)
open Http (StringMap)

/-! ## Segments -/

/-- A segment of a pattern takes a segment of a path: it captures it or is equal to
it. -/
def SegmentTakes (pat seg : Bytes) : Prop := pat.head? = some (chr ':') ∨ pat = seg

instance (pat seg : Bytes) : Decidable (SegmentTakes pat seg) :=
  inferInstanceAs (Decidable (_ ∨ _))

/-- What the segments of a pattern capture, in order: keys without their colon, with
the segments opposite. -/
def captures (pats segs : List Bytes) : List (Bytes × Bytes) :=
  ((pats.zip segs).filter fun ps => ps.1.head? = some (chr ':')).map fun ps => (ps.1.tail, ps.2)

/-- Segments that agree in pairs are matched, and exactly the captures are written. -/
theorem matchSegments_of_takes {pats segs : List Bytes}
    (h : List.Forall₂ SegmentTakes pats segs) (paramKeys : List Bytes) (params : StringMap) :
    matchSegments pats segs paramKeys params =
      (true, paramKeys ++ (captures pats segs).map Prod.fst,
        params.insertMany (captures pats segs)) := by
  induction h generalizing paramKeys params with
  | nil => simp [matchSegments, captures]
  | @cons pat seg pats segs htakes _ ih =>
      rw [matchSegments]
      by_cases hparam : pat.head? = some (chr ':')
      · have hcaptures : captures (pat :: pats) (seg :: segs) =
            (pat.tail, seg) :: captures pats segs := by
          simp [captures, hparam]
        rw [if_pos hparam, ih, hcaptures, Std.ExtTreeMap.insertMany_cons]
        simp
      · have hcaptures : captures (pat :: pats) (seg :: segs) = captures pats segs := by
          simp [captures, hparam]
        have heq : pat = seg := htakes.resolve_left hparam
        rw [if_neg hparam, if_neg (not_not_intro heq), ih, hcaptures]

/-- Segments that are matched agree in pairs. -/
theorem takes_of_matchSegments {pats segs : List Bytes} (hlen : pats.length = segs.length)
    {paramKeys : List Bytes} {params : StringMap}
    (h : (matchSegments pats segs paramKeys params).1 = true) :
    List.Forall₂ SegmentTakes pats segs := by
  induction pats generalizing segs paramKeys params with
  | nil =>
      obtain rfl := List.length_eq_zero_iff.mp hlen.symm
      exact .nil
  | cons pat pats ih =>
      cases segs with
      | nil => cases hlen
      | cons seg segs =>
          rw [matchSegments] at h
          split_ifs at h with hparam heq
          · exact .cons (.inl hparam) (ih (Nat.succ.inj hlen) h)
          · exact .cons (.inr (not_not.mp heq)) (ih (Nat.succ.inj hlen) h)

/-- A pattern matches a path exactly when their segments agree in pairs. -/
theorem matchPattern_iff {pattern path : Bytes} :
    (matchPattern pattern path [] ∅).1 = true ↔
      List.Forall₂ SegmentTakes (splitPath pattern) (splitPath path) := by
  constructor
  · intro h
    rw [matchPattern] at h
    split_ifs at h with hlen
    exact takes_of_matchSegments (not_not.mp hlen) h
  · intro h
    rw [matchPattern, if_neg (not_not_intro h.length_eq), matchSegments_of_takes h]

/-- And then its output argument holds the captures, from an empty map. -/
theorem matchPattern_of_takes {pattern path : Bytes}
    (h : List.Forall₂ SegmentTakes (splitPath pattern) (splitPath path)) :
    ∃ paramKeys, matchPattern pattern path [] ∅ =
      (true, paramKeys,
        (∅ : StringMap).insertMany (captures (splitPath pattern) (splitPath path))) := by
  rw [matchPattern, if_neg (not_not_intro h.length_eq), matchSegments_of_takes h]
  exact ⟨_, rfl⟩

/-! ## Routes -/

section Search

variable {W : Type} (regex : RegexEngine)

/-- A route takes a path and a method, and the search would leave `params` in a map
that was `outParams` before. -/
inductive Route.Takes (path method : Bytes) (outParams : StringMap) :
    Route W → StringMap → Prop where
  | pattern {route : Route W} :
      route.method = method →
      route.isRegex = false →
      List.Forall₂ SegmentTakes (splitPath route.pathPattern) (splitPath path) →
      Takes path method outParams route
        ((∅ : StringMap).insertMany (captures (splitPath route.pathPattern) (splitPath path)))
  | regex {route : Route W} {re : Bytes → Option (List Bytes)} {groups : List Bytes} :
      route.method = method →
      route.isRegex = true →
      regex route.pathPattern = .ok re →
      re path = some groups →
      Takes path method outParams route (outParams.insertMany (route.paramKeys.zip groups))

/-- No route of the table takes the path and the method. -/
def NoneTakes (path method : Bytes) (outParams : StringMap) (routes : List (Route W)) : Prop :=
  ∀ route ∈ routes, ∀ params, ¬ Route.Takes regex path method outParams route params

/-- `route` is the first route of the table that takes the path and the method, and
it leaves `params`. -/
def FirstTakes (path method : Bytes) (outParams : StringMap) (routes : List (Route W))
    (route : Route W) (params : StringMap) : Prop :=
  ∃ before after, routes = before ++ route :: after ∧
    Route.Takes regex path method outParams route params ∧
    NoneTakes regex path method outParams before

variable {regex} {path method : Bytes} {outParams : StringMap}

/-- The captures of a regex route are laid over the map. -/
theorem storeGroups_eq (outParams : StringMap) (paramKeys groups : List Bytes) :
    storeGroups outParams paramKeys groups = outParams.insertMany (paramKeys.zip groups) :=
  Std.ExtTreeMap.insertMany_list_eq_foldl.symm

/-- What a route takes is what it matches. -/
theorem Route.exists_takes_iff {route : Route W} :
    (∃ params, Route.Takes regex path method outParams route params) ↔
      route.Matches regex path method := by
  constructor
  · rintro ⟨params, htakes⟩
    cases htakes with
    | pattern hmethod hkind hsegments =>
        exact ⟨hmethod, by rw [if_neg (by simp [hkind])]; exact matchPattern_iff.mpr hsegments⟩
    | regex hmethod hkind hre hgroups =>
        exact ⟨hmethod, by rw [if_pos hkind]; exact ⟨_, _, hre, hgroups⟩⟩
  · rintro ⟨hmethod, hpattern⟩
    cases hkind : route.isRegex with
    | true =>
        rw [if_pos hkind] at hpattern
        obtain ⟨re, groups, hre, hgroups⟩ := hpattern
        exact ⟨_, .regex hmethod hkind hre hgroups⟩
    | false =>
        rw [if_neg (by simp [hkind])] at hpattern
        exact ⟨_, .pattern hmethod hkind (matchPattern_iff.mp hpattern)⟩

theorem Route.Takes.method_eq {route : Route W} {params : StringMap}
    (h : Route.Takes regex path method outParams route params) : route.method = method := by
  cases h with
  | pattern hmethod _ _ => exact hmethod
  | regex hmethod _ _ _ => exact hmethod

/-- A route leaves one map. -/
theorem Route.Takes.unique {route : Route W} {params params' : StringMap}
    (h : Route.Takes regex path method outParams route params)
    (h' : Route.Takes regex path method outParams route params') : params = params' := by
  cases h with
  | pattern _ hkind _ =>
      cases h' with
      | pattern => rfl
      | regex _ hkind' _ _ =>
          rw [hkind] at hkind'
          cases hkind'
  | regex _ hkind hre hgroups =>
      cases h' with
      | pattern _ hkind' _ =>
          rw [hkind] at hkind'
          cases hkind'
      | regex _ _ hre' hgroups' =>
          obtain rfl := Except.ok.inj (hre.symm.trans hre')
          rw [Option.some.inj (hgroups.symm.trans hgroups')]

/-- At a route that takes the path, the search ends with what the route has. -/
theorem findRoute_cons_of_takes {route : Route W} {params : StringMap}
    (h : Route.Takes regex path method outParams route params)
    (outMiddleware : List (Middleware W)) (routes : List (Route W)) :
    findRoute regex path method outParams outMiddleware (route :: routes) =
      .ok ⟨route.handler, params, route.middleware⟩ := by
  rw [findRoute]
  cases h with
  | pattern hmethod hkind hsegments =>
      obtain ⟨paramKeys, hmatch⟩ := matchPattern_of_takes hsegments
      rw [if_neg (not_not_intro hmethod), if_neg (by simp [hkind]), hmatch]
  | regex hmethod hkind hre hgroups =>
      rw [if_neg (not_not_intro hmethod), if_pos hkind]
      simp only [hre, hgroups, storeGroups_eq]

/-- A route that does not take the path is passed over, when its pattern can be
evaluated. -/
theorem findRoute_cons_of_not_takes {route : Route W}
    (hnone : ∀ params, ¬ Route.Takes regex path method outParams route params)
    (hcompiles : route.method = method → route.Compiles regex) (outMiddleware : List (Middleware W))
    (routes : List (Route W)) :
    findRoute regex path method outParams outMiddleware (route :: routes) =
      findRoute regex path method outParams outMiddleware routes := by
  have hno : ¬ route.Matches regex path method := by
    intro hmatches
    obtain ⟨params, htakes⟩ : ∃ params, Route.Takes regex path method outParams route params :=
      Route.exists_takes_iff.mpr hmatches
    exact hnone params htakes
  exact findRoute_cons_of_not_matches hno hcompiles outParams outMiddleware routes

/-- A search that does not throw has evaluated the pattern of the route in front. -/
theorem compiles_of_findRoute {route : Route W} {routes : List (Route W)}
    {outMiddleware : List (Middleware W)} {found : Found W}
    (h : findRoute regex path method outParams outMiddleware (route :: routes) = .ok found) :
    route.method = method → route.Compiles regex := by
  intro hmethod hkind
  rw [findRoute, if_neg (not_not_intro hmethod), if_pos hkind] at h
  cases hre : regex route.pathPattern with
  | ok re => exact ⟨re, rfl⟩
  | error e =>
      rw [hre] at h
      cases h

/-- The search ends at the first route that takes the path. -/
theorem findRoute_of_firstTakes {routes : List (Route W)} {route : Route W} {params : StringMap}
    (h : FirstTakes regex path method outParams routes route params)
    (hcompiles : ∀ r ∈ routes, r.Compiles regex) (outMiddleware : List (Middleware W)) :
    findRoute regex path method outParams outMiddleware routes =
      .ok ⟨route.handler, params, route.middleware⟩ := by
  obtain ⟨before, after, rfl, htakes, hbefore⟩ := h
  induction before with
  | nil => exact findRoute_cons_of_takes htakes outMiddleware after
  | cons r before ih =>
      rw [List.cons_append, findRoute_cons_of_not_takes (hbefore r List.mem_cons_self)
        (fun _ => hcompiles r List.mem_cons_self)]
      exact ih (fun r' hr' => hcompiles r' (List.mem_cons_of_mem r hr'))
        (fun r' hr' => hbefore r' (List.mem_cons_of_mem r hr'))

/-- When no route takes the path, both outputs stay what they were. -/
theorem findRoute_of_noneTakes {routes : List (Route W)}
    (h : NoneTakes regex path method outParams routes)
    (hcompiles : ∀ r ∈ routes, r.Compiles regex) (outMiddleware : List (Middleware W)) :
    findRoute regex path method outParams outMiddleware routes =
      .ok ⟨none, outParams, outMiddleware⟩ := by
  induction routes with
  | nil => rfl
  | cons r routes ih =>
      rw [findRoute_cons_of_not_takes (h r List.mem_cons_self)
        (fun _ => hcompiles r List.mem_cons_self)]
      exact ih (fun r' hr' => h r' (List.mem_cons_of_mem r hr'))
        (fun r' hr' => hcompiles r' (List.mem_cons_of_mem r hr'))

/-- A first route in the rest of a table is the first of the table when the route
in front does not take the path. -/
theorem FirstTakes.cons {route r : Route W} {routes : List (Route W)} {params : StringMap}
    (h : FirstTakes regex path method outParams routes route params)
    (hr : ∀ params, ¬ Route.Takes regex path method outParams r params) :
    FirstTakes regex path method outParams (r :: routes) route params := by
  obtain ⟨before, after, rfl, htakes, hbefore⟩ := h
  exact ⟨r :: before, after, rfl, htakes, List.forall_mem_cons.mpr ⟨hr, hbefore⟩⟩

/-- The first route that matches is the first route that takes the path. -/
theorem FirstMatch.exists_firstTakes {routes : List (Route W)} {route : Route W}
    (h : FirstMatch regex routes path method route) (outParams : StringMap) :
    ∃ params, FirstTakes regex path method outParams routes route params := by
  obtain ⟨before, after, hroutes, hmatches, hbefore⟩ := h
  obtain ⟨params, htakes⟩ := Route.exists_takes_iff.mpr hmatches
  exact ⟨params, before, after, hroutes, htakes,
    fun r hr params' htakes' => hbefore r hr (Route.exists_takes_iff.mp ⟨params', htakes'⟩)⟩

/-- The first route belongs to the table, and has the method. -/
theorem FirstTakes.mem {routes : List (Route W)} {route : Route W} {params : StringMap}
    (h : FirstTakes regex path method outParams routes route params) :
    route ∈ routes ∧ route.method = method := by
  obtain ⟨before, after, rfl, htakes, -⟩ := h
  exact ⟨List.mem_append_right _ List.mem_cons_self, htakes.method_eq⟩

/-- A table has one first route. -/
theorem FirstTakes.unique {routes : List (Route W)} {route route' : Route W}
    {params params' : StringMap} (h : FirstTakes regex path method outParams routes route params)
    (h' : FirstTakes regex path method outParams routes route' params') :
    route = route' ∧ params = params' := by
  obtain ⟨before, after, rfl, htakes, hbefore⟩ := h
  obtain ⟨before', after', hroutes, htakes', hbefore'⟩ := h'
  induction before generalizing before' with
  | nil =>
      cases before' with
      | nil =>
          obtain ⟨rfl, -⟩ := List.cons.inj hroutes
          exact ⟨rfl, htakes.unique htakes'⟩
      | cons r before' =>
          obtain ⟨rfl, -⟩ := List.cons.inj hroutes
          exact absurd htakes (hbefore' route List.mem_cons_self params)
  | cons r before ih =>
      cases before' with
      | nil =>
          obtain ⟨rfl, -⟩ := List.cons.inj hroutes
          exact absurd htakes' (hbefore r List.mem_cons_self params')
      | cons r' before' =>
          obtain ⟨rfl, hrest⟩ := List.cons.inj hroutes
          exact ih (fun q hq => hbefore q (List.mem_cons_of_mem r hq)) before' hrest
            (fun q hq => hbefore' q (List.mem_cons_of_mem r hq))

/-- Either no route takes the path, or there is a first one. -/
theorem noneTakes_or_firstTakes (regex : RegexEngine) (path method : Bytes)
    (outParams : StringMap) (routes : List (Route W)) :
    NoneTakes regex path method outParams routes ∨
      ∃ route params, FirstTakes regex path method outParams routes route params := by
  induction routes with
  | nil => exact .inl fun route hroute => absurd hroute List.not_mem_nil
  | cons route routes ih =>
      by_cases hroute : ∃ params, Route.Takes regex path method outParams route params
      · obtain ⟨params, htakes⟩ := hroute
        exact .inr ⟨route, params, [], routes, rfl, htakes,
          fun r hr => absurd hr List.not_mem_nil⟩
      · have hhead : ∀ params, ¬ Route.Takes regex path method outParams route params :=
          fun params htakes => hroute ⟨params, htakes⟩
        cases ih with
        | inl hnone => exact .inl (List.forall_mem_cons.mpr ⟨hhead, hnone⟩)
        | inr hfirst =>
            obtain ⟨r, params, hr⟩ := hfirst
            exact .inr ⟨r, params, hr.cons hhead⟩

/-- A handler that the search returns is the handler of the first route that takes
the path, and the other two outputs are that route's as well. -/
theorem firstTakes_of_findRoute {routes : List (Route W)} {outMiddleware : List (Middleware W)}
    {found : Found W} {handler : Handler W}
    (h : findRoute regex path method outParams outMiddleware routes = .ok found)
    (hhandler : found.handler = some handler) :
    ∃ route params, FirstTakes regex path method outParams routes route params ∧
      found = ⟨route.handler, params, route.middleware⟩ := by
  induction routes with
  | nil =>
      rw [findRoute] at h
      obtain rfl := Except.ok.inj h
      cases hhandler
  | cons r routes ih =>
      by_cases hr : ∃ params, Route.Takes regex path method outParams r params
      · obtain ⟨params, htakes⟩ := hr
        rw [findRoute_cons_of_takes htakes] at h
        exact ⟨r, params, ⟨[], routes, rfl, htakes, fun r' hr' => absurd hr' List.not_mem_nil⟩,
          (Except.ok.inj h).symm⟩
      · have hnone : ∀ params, ¬ Route.Takes regex path method outParams r params :=
          fun params htakes => hr ⟨params, htakes⟩
        rw [findRoute_cons_of_not_takes hnone (compiles_of_findRoute h)] at h
        obtain ⟨route, params, hfirst, hfound⟩ := ih h
        exact ⟨route, params, hfirst.cons hnone, hfound⟩

/-- The search returns the handler, the middleware and the captures of the first
route that takes the path.  It returns no handler exactly when there is none, and
then both outputs are what they were. -/
theorem findRoute_first (regex : RegexEngine) {routes : List (Route W)}
    (hhandlers : ∀ route ∈ routes, route.handler ≠ none)
    (hcompiles : ∀ route ∈ routes, route.Compiles regex) (path method : Bytes)
    (outParams : StringMap) (outMiddleware : List (Middleware W)) :
    ∃ found, findRoute regex path method outParams outMiddleware routes = .ok found ∧
      (∀ route params, FirstTakes regex path method outParams routes route params →
        found = ⟨route.handler, params, route.middleware⟩) ∧
      (found.handler = none ↔ NoneTakes regex path method outParams routes) ∧
      (found.handler = none → found = ⟨none, outParams, outMiddleware⟩) := by
  cases noneTakes_or_firstTakes regex path method outParams routes with
  | inl hnone =>
      refine ⟨_, findRoute_of_noneTakes hnone hcompiles outMiddleware, ?_,
        ⟨fun _ => hnone, fun _ => rfl⟩, fun _ => rfl⟩
      intro route params hfirst
      obtain ⟨before, after, hroutes, htakes, -⟩ := hfirst
      exact absurd htakes (hnone route (by rw [hroutes]; simp) params)
  | inr hfirst =>
      obtain ⟨route, params, hfirst⟩ := hfirst
      have hfound := findRoute_of_firstTakes hfirst hcompiles outMiddleware
      obtain ⟨before, after, hroutes, htakes, -⟩ := hfirst
      have hmem : route ∈ routes := by rw [hroutes]; simp
      refine ⟨_, hfound, ?_, ?_, fun hnull => absurd hnull (hhandlers route hmem)⟩
      · intro route' params' hfirst'
        have hfound' := findRoute_of_firstTakes hfirst' hcompiles outMiddleware
        exact Except.ok.inj (hfound.symm.trans hfound')
      · exact ⟨fun hnull => absurd hnull (hhandlers route hmem),
          fun hnone => absurd htakes (hnone route hmem params)⟩

end Search

/-- A table whose first route captures the user and then fails, and whose third
matches every path. -/
def mixedRoutes : List (Route Unit) :=
  [{ pathPattern := ascii "/users/:name/posts", method := ascii "GET",
     handler := some fun _ w => (.ok {}, w) },
   { pathPattern := ascii "/users/:id/:tab", method := ascii "GET",
     handler := some fun _ w => (.ok {}, w) },
   { pathPattern := ascii "(.*)", method := ascii "GET", handler := some fun _ w => (.ok {}, w)
     isRegex := true, paramKeys := [ascii "all"] }]

theorem findRoute_mixedRoutes : ∃ found,
    findRoute (fun _ => .ok fun path => some [path]) (ascii "/users/7/likes") (ascii "GET") ∅ []
      mixedRoutes = .ok found ∧ found.handler ≠ none ∧
      found.outParams = (∅ : StringMap).insertMany
        [(ascii "id", ascii "7"), (ascii "tab", ascii "likes")] := by
  obtain ⟨found, hfound, hfirst, -⟩ :=
    findRoute_first (fun _ => .ok fun path => some [path])
      (show ∀ route ∈ mixedRoutes, route.handler ≠ none by simp [mixedRoutes])
      (fun _ _ _ => ⟨_, rfl⟩) (ascii "/users/7/likes") (ascii "GET") ∅ []
  have hskip : ¬ List.Forall₂ SegmentTakes (splitPath (ascii "/users/:name/posts"))
      (splitPath (ascii "/users/7/likes")) := by decide +kernel
  have htakes : List.Forall₂ SegmentTakes (splitPath (ascii "/users/:id/:tab"))
      (splitPath (ascii "/users/7/likes")) := by decide +kernel
  have hcaptures : captures (splitPath (ascii "/users/:id/:tab"))
      (splitPath (ascii "/users/7/likes")) =
        [(ascii "id", ascii "7"), (ascii "tab", ascii "likes")] := by decide +kernel
  obtain rfl := hfirst _ _ ⟨[_], [_], rfl, .pattern rfl rfl htakes, by
    intro route hroute params hroute'
    obtain rfl := List.mem_singleton.mp hroute
    cases hroute' with
    | pattern _ _ hsegments => exact hskip hsegments
    | regex _ hkind _ _ => cases hkind⟩
  exact ⟨_, hfound, Option.some_ne_none _, by rw [← hcaptures]⟩

end Fion
