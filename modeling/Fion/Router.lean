import Fion.Http.Request
import Fion.Http.Response

/-!
# Routes and route search

Handlers and middleware are user code.  They get a `std::unique_ptr<Request>`,
which may be empty, and everything else they can read or change is a state of
type `W`.  They either return or throw a `std::exception`.  A handler returns a
response and a middleware the request pointer it leaves behind.

The regular expression engine is a parameter: compiling a pattern may throw, and
a compiled pattern either does not match a path or matches it with the texts of
its capture groups.

`matchPattern` writes captures before it knows whether the pattern matches, so
its result carries them in both cases.  `findRoute` gives each pattern route a
fresh map and drops it when the route does not match.
-/

namespace Fion

open Cpp (Bytes Exn ascii chr)
open Text (findFrom)
open Http (Request Response StringMap)

/-! ## User code -/

/-- `std::unique_ptr<http::Request>`. -/
abbrev RequestPtr := Option Request

/-- `Handler::handle`. -/
abbrev Handler (W : Type) := RequestPtr → W → Except Exn Response × W

/-- A middleware function. -/
abbrev Middleware (W : Type) := RequestPtr → W → Except Exn RequestPtr × W

/-- A regular expression engine: `std::regex re(pattern)` followed by
`std::regex_match`. -/
abbrev RegexEngine := Bytes → Except Exn (Bytes → Option (List Bytes))

/-- The class `Route`.  The handler is a shared pointer and may be null. -/
structure Route (W : Type) where
  pathPattern : Bytes
  method : Bytes
  handler : Option (Handler W)
  middleware : List (Middleware W) := []
  isRegex : Bool := false
  paramKeys : List Bytes := []

/-! ## Patterns -/

/-- The loop of `splitPath`: `start` is where the next segment begins. -/
def splitLoop (path : Bytes) (start : Nat) (segments : List Bytes) : List Bytes :=
  match _h : findFrom [chr '/'] path start with
  | some e =>
      splitLoop path (e + 1)
        (if start < e then segments ++ [(path.drop start).take (e - start)] else segments)
  | none => if start < path.length then segments ++ [path.drop start] else segments
termination_by path.length + 1 - start
decreasing_by
  have hbounds := Text.findFrom_bounds (by simp) _h
  rw [List.length_singleton] at hbounds
  omega

/-- The non-empty pieces of a path between slashes. -/
def splitPath (path : Bytes) : List Bytes := splitLoop path 0 []

/-- The loop of `matchPattern` over two segment lists of one length. -/
def matchSegments :
    List Bytes → List Bytes → List Bytes → StringMap → Bool × List Bytes × StringMap
  | pat :: pats, seg :: segs, paramKeys, params =>
      if pat.head? = some (chr ':') then
        matchSegments pats segs (paramKeys ++ [pat.tail]) (params.insert pat.tail seg)
      else if pat ≠ seg then (false, paramKeys, params)
      else matchSegments pats segs paramKeys params
  | _, _, paramKeys, params => (true, paramKeys, params)

/-- Whether the pattern matches, and the two output arguments. -/
def matchPattern (pattern path : Bytes) (paramKeys : List Bytes) (params : StringMap) :
    Bool × List Bytes × StringMap :=
  let patSegs := splitPath pattern
  let pathSegs := splitPath path
  if patSegs.length ≠ pathSegs.length then (false, paramKeys, params)
  else matchSegments patSegs pathSegs paramKeys params

example : matchPattern (ascii "/users/:id") (ascii "users//42") [] ∅ =
    (true, [ascii "id"], (∅ : StringMap).insert (ascii "id") (ascii "42")) := by decide +kernel

/-! ## The search -/

section Search

variable {W : Type} (regex : RegexEngine)

/-- What `findRoute` returns, with its two output arguments. -/
structure Found (W : Type) where
  handler : Option (Handler W)
  outParams : StringMap
  outMiddleware : List (Middleware W)

/-- The captures of a regex route, paired with the keys as far as both go. -/
def storeGroups (outParams : StringMap) (paramKeys groups : List Bytes) : StringMap :=
  (paramKeys.zip groups).foldl (fun params kv => params.insert kv.1 kv.2) outParams

/-- The first route of a list that takes the path and the method. -/
def findRoute (path method : Bytes) (outParams : StringMap) (outMiddleware : List (Middleware W)) :
    List (Route W) → Except Exn (Found W)
  | [] => .ok ⟨none, outParams, outMiddleware⟩
  | route :: routes =>
      if route.method ≠ method then findRoute path method outParams outMiddleware routes
      else if route.isRegex then
        match regex route.pathPattern with
        | .error e => .error e
        | .ok re =>
            match re path with
            | some groups =>
                .ok ⟨route.handler, storeGroups outParams route.paramKeys groups, route.middleware⟩
            | none => findRoute path method outParams outMiddleware routes
      else
        match matchPattern route.pathPattern path [] ∅ with
        | (true, _, params) => .ok ⟨route.handler, params, route.middleware⟩
        | (false, _, _) => findRoute path method outParams outMiddleware routes

/-! ## What the search finds -/

/-- The route takes a path and a method. -/
def Route.Matches (route : Route W) (path method : Bytes) : Prop :=
  route.method = method ∧
    if route.isRegex then ∃ re groups, regex route.pathPattern = .ok re ∧ re path = some groups
    else (matchPattern route.pathPattern path [] ∅).1 = true

/-- A route whose pattern the search can evaluate. -/
def Route.Compiles (route : Route W) : Prop :=
  route.isRegex = true → ∃ re, regex route.pathPattern = .ok re

/-- `route` is the first route of the table that takes the path and the
method. -/
def FirstMatch (routes : List (Route W)) (path method : Bytes) (route : Route W) : Prop :=
  ∃ before after, routes = before ++ route :: after ∧ route.Matches regex path method ∧
    ∀ r ∈ before, ¬ r.Matches regex path method

variable {regex}

/-- A route that does not match and whose pattern can be evaluated is passed
over. -/
theorem findRoute_cons_of_not_matches {route : Route W} {path method : Bytes}
    (hno : ¬ route.Matches regex path method)
    (hc : route.method = method → route.Compiles regex) (outParams : StringMap)
    (outMiddleware : List (Middleware W)) (routes : List (Route W)) :
    findRoute regex path method outParams outMiddleware (route :: routes) =
      findRoute regex path method outParams outMiddleware routes := by
  by_cases hm : route.method = method
  · rw [findRoute, if_neg (not_not_intro hm)]
    cases hr : route.isRegex with
    | true =>
        obtain ⟨re, hre⟩ := hc hm hr
        have hnone : re path = none := by
          cases hp : re path with
          | none => rfl
          | some groups =>
              exact absurd ⟨hm, by rw [if_pos hr]; exact ⟨re, groups, hre, hp⟩⟩ hno
        simp only [if_true, hre, hnone]
    | false =>
        have hfalse : (matchPattern route.pathPattern path [] ∅).1 = false := by
          cases hp : (matchPattern route.pathPattern path [] ∅).1 with
          | false => rfl
          | true => exact absurd ⟨hm, by simpa [hr] using hp⟩ hno
        rw [if_neg Bool.false_ne_true]
        split
        · next heq => rw [heq] at hfalse; cases hfalse
        · rfl
  · rw [findRoute, if_pos hm]

end Search

end Fion
