import Fion.FirstMatch

/-!
# Routes that do not match

A route that does not match a request leaves no trace in what `findRoute` returns, as long
as the search passes over it.  But `std::regex` is constructed in the middle of the search,
so a pattern that is no regular expression ends it with an exception, for every route behind
it too.  The search returns exactly when no such pattern is reached (`findRoute_returns_iff`),
and a route that does not match can then be taken out of the table (`findRoute_removal_iff`).
-/

namespace Fion

open Cpp (Bytes Exn ascii chr)
open Http (StringMap)

section Search

variable {W : Type} (regex : RegexEngine)

/-- In front of every route of the method whose pattern is not valid there is a route that
matches. -/
def ReachesValid (path method : Bytes) (routes : List (Route W)) : Prop :=
  ∀ before route after, routes = before ++ route :: after → route.method = method →
    ¬ route.Compiles regex → ∃ r ∈ before, r.Matches regex path method

variable {regex} {path method : Bytes}

theorem reachesValid_of_compiles {routes : List (Route W)}
    (h : ∀ route ∈ routes, route.Compiles regex) : ReachesValid regex path method routes :=
  fun before route after hsplit _ hinvalid => absurd (h route (by rw [hsplit]; simp)) hinvalid

/-- A route that matches has a valid pattern. -/
theorem Route.Matches.compiles {route : Route W} (h : route.Matches regex path method) :
    route.Compiles regex := fun hkind => by
  have hpattern := h.2
  rw [if_pos hkind] at hpattern
  obtain ⟨re, groups, hre, -⟩ := hpattern
  exact ⟨re, hre⟩

theorem reachesValid_of_matches {route : Route W} (h : route.Matches regex path method)
    (routes : List (Route W)) : ReachesValid regex path method (route :: routes) := by
  intro before bad after hsplit _ hinvalid
  cases before with
  | nil =>
      obtain ⟨rfl, -⟩ := List.cons.inj hsplit
      exact absurd h.compiles hinvalid
  | cons r before =>
      obtain ⟨rfl, -⟩ := List.cons.inj hsplit
      exact ⟨route, List.mem_cons_self, h⟩

/-- Behind a route that does not match, the search has to reach valid patterns only. -/
theorem reachesValid_cons_iff {route : Route W} (h : ¬ route.Matches regex path method)
    (routes : List (Route W)) :
    ReachesValid regex path method (route :: routes) ↔
      (route.method = method → route.Compiles regex) ∧ ReachesValid regex path method routes := by
  constructor
  · intro hvalid
    refine ⟨fun hmethod => ?_, fun before bad after hsplit hmethod hinvalid => ?_⟩
    · by_contra hinvalid
      obtain ⟨r, hr, -⟩ := hvalid [] route routes rfl hmethod hinvalid
      cases hr
    · obtain ⟨r, hr, hmatches⟩ :=
        hvalid (route :: before) bad after (by rw [hsplit]; rfl) hmethod hinvalid
      rcases List.mem_cons.mp hr with rfl | hr
      · exact absurd hmatches h
      · exact ⟨r, hr, hmatches⟩
  · rintro ⟨hcompiles, hvalid⟩ before bad after hsplit hmethod hinvalid
    cases before with
    | nil =>
        obtain ⟨rfl, -⟩ := List.cons.inj hsplit
        exact absurd (hcompiles hmethod) hinvalid
    | cons r before =>
        obtain ⟨rfl, hrest⟩ := List.cons.inj hsplit
        obtain ⟨r, hr, hmatches⟩ := hvalid before bad after hrest hmethod hinvalid
        exact ⟨r, List.mem_cons_of_mem _ hr, hmatches⟩

/-- The search returns exactly when it reaches valid patterns only. -/
theorem findRoute_returns_iff {outParams : StringMap} {outMiddleware : List (Middleware W)}
    {routes : List (Route W)} :
    (∃ found, findRoute regex path method outParams outMiddleware routes = .ok found) ↔
      ReachesValid regex path method routes := by
  induction routes with
  | nil =>
      refine iff_of_true ⟨_, rfl⟩ fun before route after hsplit => ?_
      simp at hsplit
  | cons route routes ih =>
      by_cases hmatches : route.Matches regex path method
      · obtain ⟨params, htakes⟩ := Route.exists_takes_iff.mpr hmatches
        exact iff_of_true ⟨_, findRoute_cons_of_takes htakes outMiddleware routes⟩
          (reachesValid_of_matches hmatches routes)
      · rw [reachesValid_cons_iff hmatches]
        constructor
        · rintro ⟨found, hfound⟩
          have hcompiles := compiles_of_findRoute hfound
          rw [findRoute_cons_of_not_matches hmatches hcompiles] at hfound
          exact ⟨hcompiles, ih.mp ⟨found, hfound⟩⟩
        · rintro ⟨hcompiles, hvalid⟩
          rw [findRoute_cons_of_not_matches hmatches hcompiles]
          exact ih.mpr hvalid

/-- A search that returns finds the same without a route that does not match. -/
theorem findRoute_removal {r : Route W} (hr : ¬ r.Matches regex path method)
    {before after : List (Route W)} {outParams : StringMap}
    {outMiddleware : List (Middleware W)} {found : Found W}
    (h : findRoute regex path method outParams outMiddleware (before ++ r :: after) =
      .ok found) :
    findRoute regex path method outParams outMiddleware (before ++ after) = .ok found := by
  induction before with
  | nil =>
      rw [List.nil_append] at h ⊢
      rwa [findRoute_cons_of_not_matches hr (compiles_of_findRoute h)] at h
  | cons route before ih =>
      rw [List.cons_append] at h ⊢
      by_cases hmatches : route.Matches regex path method
      · obtain ⟨params, htakes⟩ := Route.exists_takes_iff.mpr hmatches
        rw [findRoute_cons_of_takes htakes] at h ⊢
        exact h
      · have hcompiles := compiles_of_findRoute h
        rw [findRoute_cons_of_not_matches hmatches hcompiles] at h ⊢
        exact ih h

/-- With and without a route that does not match, the search returns the same handler,
parameters and middleware exactly when it reaches valid patterns only. -/
theorem findRoute_removal_iff {r : Route W} (hr : ¬ r.Matches regex path method)
    (before after : List (Route W)) (outParams : StringMap)
    (outMiddleware : List (Middleware W)) :
    (∃ found,
      findRoute regex path method outParams outMiddleware (before ++ r :: after) = .ok found ∧
        findRoute regex path method outParams outMiddleware (before ++ after) = .ok found) ↔
      ReachesValid regex path method (before ++ r :: after) := by
  rw [← findRoute_returns_iff]
  constructor
  · rintro ⟨found, hfound, -⟩
    exact ⟨found, hfound⟩
  · rintro ⟨found, hfound⟩
    exact ⟨found, hfound, findRoute_removal hr hfound⟩

end Search

/-- An engine that takes a pattern literally and refuses an open bracket. -/
def literalEngine : RegexEngine := fun pattern =>
  if chr '(' ∈ pattern then .error (.regexError "Unexpected character in brace expression")
  else .ok fun path => if path = pattern then some [] else none

/-- A regex route for a path, with no handler to run. -/
def regexRoute (pattern : String) : Route Unit where
  pathPattern := ascii pattern
  method := ascii "GET"
  handler := some fun _ w => (.ok {}, w)
  isRegex := true

theorem regexRoute_not_matches (pattern : String) {path : Bytes} (hne : path ≠ ascii pattern) :
    ¬ (regexRoute pattern).Matches literalEngine path (ascii "GET") := by
  rintro ⟨-, hpattern⟩
  rw [if_pos (show (regexRoute pattern).isRegex = true from rfl)] at hpattern
  obtain ⟨re, groups, hre, hgroups⟩ := hpattern
  rw [literalEngine] at hre
  split_ifs at hre
  obtain rfl := Except.ok.inj hre
  have hpath : path = (regexRoute pattern).pathPattern ∧ groups = [] := by simpa using hgroups.symm
  exact hne hpath.1

/-- A route for another path is taken out of a table. -/
theorem findRoute_removal_other : ∃ found,
    findRoute literalEngine (ascii "/b") (ascii "GET") ∅ [] [regexRoute "/a", regexRoute "/b"] =
      .ok found ∧
    findRoute literalEngine (ascii "/b") (ascii "GET") ∅ [] [regexRoute "/b"] = .ok found := by
  have hother := regexRoute_not_matches "/a" (show ascii "/b" ≠ ascii "/a" by decide)
  refine (findRoute_removal_iff hother [] [regexRoute "/b"] ∅ []).mpr ?_
  refine reachesValid_of_compiles fun route hroute _ => ?_
  rcases List.mem_cons.mp hroute with rfl | hroute
  · exact ⟨_, rfl⟩
  · rw [List.mem_singleton.mp hroute]
    exact ⟨_, rfl⟩

/-- A pattern that is no regular expression hides the routes behind it. -/
theorem findRoute_removal_invalid :
    ¬ ∀ (regex : RegexEngine) (path method : Bytes) (before after : List (Route Unit))
      (r : Route Unit) (outParams : StringMap) (outMiddleware : List (Middleware Unit)),
      ¬ r.Matches regex path method →
      ∃ found,
        findRoute regex path method outParams outMiddleware (before ++ r :: after) = .ok found ∧
          findRoute regex path method outParams outMiddleware (before ++ after) = .ok found := by
  intro h
  have hbad := regexRoute_not_matches "(" (show ascii "/b" ≠ ascii "(" by decide)
  obtain ⟨found, hfound, -⟩ :=
    h literalEngine (ascii "/b") (ascii "GET") [] [regexRoute "/b"] (regexRoute "(") ∅ [] hbad
  cases hfound

end Fion
