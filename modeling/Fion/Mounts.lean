import Fion.Groups
import Fion.Removal

/-!
# Groups and resources as tables

A search goes through the table call by call: what a call of a builder adds is only reached
when nothing before takes the path (`findRoute_append`).

`addGroup` is a router that is mounted under its prefix.  The search in the group is the
search in its routes by themselves, for what the path is behind the prefix, and the captures
of the prefix are laid under those of the route (`addGroup_mounts`).  `addResource` serves
five endpoints and nothing else (`addResource_serves`).
-/

namespace Fion

open Cpp (Bytes Exn ascii chr)
open Http (StringMap)

variable {W : Type} {regex : RegexEngine} {path method : Bytes} {outParams : StringMap}
  {outMiddleware : List (Middleware W)}

/-! ## Tables one behind the other -/

/-- A search that has found no handler goes on. -/
def Found.orElse (first next : Except Exn (Found W)) : Except Exn (Found W) :=
  match first with
  | .ok ⟨none, _, _⟩ => next
  | result => result

/-- The search in a table goes on in what was added later, when it finds no handler and
throws no exception. -/
theorem findRoute_append {routes : List (Route W)}
    (hhandlers : ∀ route ∈ routes, route.handler ≠ none) (more : List (Route W)) :
    findRoute regex path method outParams outMiddleware (routes ++ more) =
      Found.orElse (findRoute regex path method outParams outMiddleware routes)
        (findRoute regex path method outParams outMiddleware more) := by
  induction routes with
  | nil => rfl
  | cons route routes ih =>
      obtain ⟨hroute, hroutes⟩ := List.forall_mem_cons.mp hhandlers
      obtain ⟨handler, hhandler⟩ := Option.ne_none_iff_exists'.mp hroute
      have hrest := ih hroutes
      rw [List.cons_append, findRoute, findRoute, hhandler]
      by_cases hmethod : route.method = method
      · rw [if_neg (not_not_intro hmethod), if_neg (not_not_intro hmethod)]
        cases route.isRegex with
        | true =>
            simp only [if_true]
            cases regex route.pathPattern with
            | error e => rfl
            | ok re =>
                dsimp only
                cases re path with
                | some groups => rfl
                | none => exact hrest
        | false =>
            rw [if_neg Bool.false_ne_true, if_neg Bool.false_ne_true]
            rcases matchPattern route.pathPattern path [] ∅ with ⟨_ | _, paramKeys, params⟩
            · exact hrest
            · rfl
      · rw [if_pos hmethod, if_pos hmethod]
        exact hrest

/-- A search that finds no handler leaves the outputs as they were. -/
theorem orElse_findRoute_self {routes : List (Route W)}
    (hhandlers : ∀ route ∈ routes, route.handler ≠ none) :
    Found.orElse (findRoute regex path method outParams outMiddleware routes)
        (.ok ⟨none, outParams, outMiddleware⟩) =
      findRoute regex path method outParams outMiddleware routes := by
  have happend : findRoute regex path method outParams outMiddleware (routes ++ []) = _ :=
    findRoute_append hhandlers []
  rw [List.append_nil] at happend
  exact happend.symm

/-! ## Behind a prefix -/

/-- What the search in a group returns, when the search in its routes by themselves
returns `found` for the path behind the prefix. -/
def Found.under (captured : StringMap) (groupMiddleware : List (Middleware W))
    (outParams : StringMap) (outMiddleware : List (Middleware W)) (found : Found W) : Found W :=
  match found.handler with
  | none => ⟨none, outParams, outMiddleware⟩
  | some handler =>
      ⟨some handler, captured ∪ found.outParams, found.outMiddleware ++ groupMiddleware⟩

section Group

variable {pathPrefix : Bytes} {own : Route W}

theorem splitPath_append (h : SlashBetween pathPrefix own.pathPattern) :
    splitPath (pathPrefix ++ own.pathPattern) =
      splitPath pathPrefix ++ splitPath own.pathPattern := by
  rw [splitPath_eq, splitPath_eq, splitPath_eq, Text.pieces_append (slashBetween_iff.mp h)]

/-- A route of a group takes a path as the route by itself takes what the path is behind
the prefix. -/
theorem takes_inGroup_iff (hregex : own.isRegex = false)
    (h : SlashBetween pathPrefix own.pathPattern) (groupMiddleware : List (Middleware W))
    {front : List Bytes} {rest : Bytes} (hpath : splitPath path = front ++ splitPath rest)
    (hfront : List.Forall₂ SegmentTakes (splitPath pathPrefix) front) {params : StringMap} :
    Route.Takes regex path method outParams (own.inGroup pathPrefix groupMiddleware) params ↔
      ∃ params', Route.Takes regex rest method ∅ own params' ∧
        params = (∅ : StringMap).insertMany (captures (splitPath pathPrefix) front) ∪ params' := by
  have hsplit : splitPath (own.inGroup pathPrefix groupMiddleware).pathPattern =
      splitPath pathPrefix ++ splitPath own.pathPattern := splitPath_append h
  have hcaptures : captures (splitPath (own.inGroup pathPrefix groupMiddleware).pathPattern)
      (splitPath path) =
        captures (splitPath pathPrefix) front ++
          captures (splitPath own.pathPattern) (splitPath rest) := by
    rw [hsplit, hpath, captures_append hfront.length_eq]
  have hsegments : List.Forall₂ SegmentTakes
      (splitPath (own.inGroup pathPrefix groupMiddleware).pathPattern) (splitPath path) ↔
        List.Forall₂ SegmentTakes (splitPath own.pathPattern) (splitPath rest) := by
    rw [hsplit, hpath, forall₂_append_iff]
    constructor
    · rintro ⟨front', back, heq, hfront', hback⟩
      obtain ⟨rfl, rfl⟩ := List.append_inj heq (hfront.length_eq.symm.trans hfront'.length_eq)
      exact hback
    · exact fun hback => ⟨front, _, rfl, hfront, hback⟩
  constructor
  · intro htakes
    cases htakes with
    | pattern hmethod _ hown =>
        rw [hcaptures, LastWins.insertMany_append_eq_union]
        exact ⟨_, .pattern hmethod hregex (hsegments.mp hown), rfl⟩
    | regex _ hkind _ _ =>
        rw [show (own.inGroup pathPrefix groupMiddleware).isRegex = own.isRegex from rfl,
          hregex] at hkind
        cases hkind
  · rintro ⟨params', htakes, rfl⟩
    cases htakes with
    | pattern hmethod _ hown =>
        rw [← LastWins.insertMany_append_eq_union, ← hcaptures]
        exact .pattern hmethod hregex (hsegments.mpr hown)
    | regex _ hkind _ _ =>
        rw [hregex] at hkind
        cases hkind

/-- The search in a group, for a path behind the prefix. -/
theorem findRoute_group {groupRoutes : List (Route W)}
    (hregex : ∀ own ∈ groupRoutes, own.isRegex = false)
    (hslash : ∀ own ∈ groupRoutes, SlashBetween pathPrefix own.pathPattern)
    (hhandlers : ∀ own ∈ groupRoutes, own.handler ≠ none)
    (groupMiddleware : List (Middleware W)) {front : List Bytes} {rest : Bytes}
    (hpath : splitPath path = front ++ splitPath rest)
    (hfront : List.Forall₂ SegmentTakes (splitPath pathPrefix) front) :
    findRoute regex path method outParams outMiddleware
        (groupRoutes.map fun own => own.inGroup pathPrefix groupMiddleware) =
      (findRoute regex rest method ∅ [] groupRoutes).map
        (Found.under ((∅ : StringMap).insertMany (captures (splitPath pathPrefix) front))
          groupMiddleware outParams outMiddleware) := by
  induction groupRoutes with
  | nil => rfl
  | cons own groupRoutes ih =>
      obtain ⟨hkind, hregex⟩ := List.forall_mem_cons.mp hregex
      obtain ⟨hown, hslash⟩ := List.forall_mem_cons.mp hslash
      obtain ⟨hhandler, hhandlers⟩ := List.forall_mem_cons.mp hhandlers
      rw [List.map_cons]
      by_cases htakes : ∃ params, Route.Takes regex rest method ∅ own params
      · obtain ⟨params, htakes⟩ := htakes
        obtain ⟨handler, hsome⟩ := Option.ne_none_iff_exists'.mp hhandler
        rw [findRoute_cons_of_takes htakes, findRoute_cons_of_takes
          ((takes_inGroup_iff hkind hown groupMiddleware hpath hfront).mpr ⟨params, htakes, rfl⟩)]
        simp [Except.map, Found.under, Route.inGroup, hsome]
      · have hnone : ∀ params, ¬ Route.Takes regex path method outParams
            (own.inGroup pathPrefix groupMiddleware) params := by
          intro params hgroup
          obtain ⟨params', hown', -⟩ :=
            (takes_inGroup_iff hkind hown groupMiddleware hpath hfront).mp hgroup
          exact htakes ⟨params', hown'⟩
        have hplain : ∀ r : Route W, r.isRegex = false → r.method = method → r.Compiles regex := by
          intro r hr _ htrue
          rw [hr] at htrue
          cases htrue
        rw [findRoute_cons_of_not_takes hnone (hplain _ hkind), findRoute_cons_of_not_takes
          (fun params hown' => htakes ⟨params, hown'⟩) (hplain _ hkind)]
        exact ih hregex hslash hhandlers

/-- A path that is not behind the prefix is taken by no route of the group. -/
theorem noneTakes_group {groupRoutes : List (Route W)}
    (hregex : ∀ own ∈ groupRoutes, own.isRegex = false)
    (hslash : ∀ own ∈ groupRoutes, SlashBetween pathPrefix own.pathPattern)
    (groupMiddleware : List (Middleware W))
    (hpath : ∀ front back, splitPath path = front ++ back →
      ¬ List.Forall₂ SegmentTakes (splitPath pathPrefix) front) :
    NoneTakes regex path method outParams
      (groupRoutes.map fun own => own.inGroup pathPrefix groupMiddleware) := by
  intro route hroute params htakes
  obtain ⟨own, hown, rfl⟩ := List.mem_map.mp hroute
  cases htakes with
  | pattern _ _ hsegments =>
      rw [show splitPath (own.inGroup pathPrefix groupMiddleware).pathPattern = _ from
        splitPath_append (hslash own hown), forall₂_append_iff] at hsegments
      obtain ⟨front, back, heq, hfront, -⟩ := hsegments
      exact hpath front back heq hfront
  | regex _ hkind _ _ =>
      rw [show (own.inGroup pathPrefix groupMiddleware).isRegex = own.isRegex from rfl,
        hregex own hown] at hkind
      cases hkind

/-- A group is a router mounted under its prefix.  Behind the routes that were there before,
a path whose segments begin with some that the prefix takes is looked up in the routes of
the group by what is left of it; the captures of the prefix are added, below those of the
route, and the middleware of the group behind that of the route.  Every other path is
looked up as without the group. -/
theorem addGroup_mounts (regex : RegexEngine) {routes groupRoutes : List (Route W)}
    (htable : ∀ route ∈ routes, route.handler ≠ none)
    (hhandlers : ∀ own ∈ groupRoutes, own.handler ≠ none)
    (hregex : ∀ own ∈ groupRoutes, own.isRegex = false) {pathPrefix : Bytes}
    (hslash : ∀ own ∈ groupRoutes, SlashBetween pathPrefix own.pathPattern)
    (groupMiddleware : List (Middleware W)) (path method : Bytes) (outParams : StringMap)
    (outMiddleware : List (Middleware W)) :
    let table := Router.addGroup routes pathPrefix groupRoutes groupMiddleware
    (∀ front rest, splitPath path = front ++ splitPath rest →
      Agree (splitPath pathPrefix) front →
        findRoute regex path method outParams outMiddleware table =
          Found.orElse (findRoute regex path method outParams outMiddleware routes)
            ((findRoute regex rest method ∅ [] groupRoutes).map
              (Found.under ((∅ : StringMap).insertMany (captures (splitPath pathPrefix) front))
                groupMiddleware outParams outMiddleware))) ∧
    ((∀ front back, splitPath path = front ++ back → ¬ Agree (splitPath pathPrefix) front) →
      findRoute regex path method outParams outMiddleware table =
        findRoute regex path method outParams outMiddleware routes) := by
  intro table
  have htable' : table =
      routes ++ groupRoutes.map fun own => own.inGroup pathPrefix groupMiddleware :=
    Registration.apply_eq routes (.addGroup pathPrefix groupRoutes groupMiddleware)
  rw [htable', findRoute_append htable]
  constructor
  · intro front rest hpath hfront
    rw [findRoute_group hregex hslash hhandlers groupMiddleware hpath (agree_iff.mp hfront)]
  · intro hpath
    have hnone : NoneTakes regex path method outParams
        (groupRoutes.map fun own => own.inGroup pathPrefix groupMiddleware) :=
      noneTakes_group hregex hslash groupMiddleware fun front back heq hfront =>
        hpath front back heq (agree_iff.mpr hfront)
    rw [findRoute_of_noneTakes hnone, orElse_findRoute_self htable]
    intro route hroute htrue
    obtain ⟨own, hown, rfl⟩ := List.mem_map.mp hroute
    rw [show (own.inGroup pathPrefix groupMiddleware).isRegex = own.isRegex from rfl,
      hregex own hown] at htrue
    cases htrue

end Group

/-- A handler that answers every request with the same response. -/
def plainHandler : Handler Unit := fun _ w => (.ok {}, w)

/-- A route for a user. -/
def usersRoute : Route Unit where
  pathPattern := ascii "/users/:id"
  method := ascii "GET"
  handler := some plainHandler

theorem addGroup_mounts_users :
    findRoute (fun _ => .ok fun _ => none) (ascii "/api/v2/users/7") (ascii "GET") ∅ []
        (Router.addGroup [] (ascii "/api/:version") [usersRoute] []) =
      (findRoute (fun _ => .ok fun _ => none) (ascii "/users/7") (ascii "GET") ∅ []
        [usersRoute]).map
          (Found.under ((∅ : StringMap).insertMany [(ascii "version", ascii "v2")]) [] ∅ []) := by
  have hfront : Agree (splitPath (ascii "/api/:version")) [ascii "api", ascii "v2"] :=
    agree_iff.mpr (by decide +kernel)
  have hcaptures : captures (splitPath (ascii "/api/:version")) [ascii "api", ascii "v2"] =
      [(ascii "version", ascii "v2")] := by decide +kernel
  rw [← hcaptures]
  exact (addGroup_mounts (fun _ => .ok fun _ => none) (by simp) (by simp [usersRoute])
    (by simp [usersRoute]) (by simp [usersRoute, SlashBetween]; decide) [] _ _ ∅ []).1 _
      (ascii "/users/7") (by decide +kernel) hfront

/-! ## Resources -/

section Resource

variable {resource : Bytes}

theorem splitPath_collection (resource : Bytes) :
    splitPath (ascii "/" ++ resource) = splitPath resource := by
  rw [splitPath_eq, splitPath_eq]
  exact Text.pieces_cons_self _ _

theorem splitPath_member (resource : Bytes) :
    splitPath (ascii "/" ++ resource ++ ascii "/:id") = splitPath resource ++ [ascii ":id"] := by
  have hslash : ¬ Text.Joined (chr '/') (ascii "/" ++ resource) (ascii "/:id") :=
    fun ⟨_, y, hy, hyc⟩ => hyc (Option.some.inj hy).symm
  have hmember : Text.pieces (chr '/') (ascii "/:id") = [ascii ":id"] := by decide
  rw [splitPath_eq, Text.pieces_append hslash, hmember, ← splitPath_eq, splitPath_collection]

/-- What the endpoints of a resource take: the resource itself, and one more segment behind
it, which is captured as `id`. -/
inductive ResourceTakes (resource path method : Bytes) : StringMap → Prop where
  | collection :
      method = ascii "GET" ∨ method = ascii "POST" →
      Agree (splitPath resource) (splitPath path) →
      ResourceTakes resource path method
        ((∅ : StringMap).insertMany (captures (splitPath resource) (splitPath path)))
  | member {front : List Bytes} {id : Bytes} :
      method = ascii "GET" ∨ method = ascii "PUT" ∨ method = ascii "DELETE" →
      splitPath path = front ++ [id] →
      Agree (splitPath resource) front →
      ResourceTakes resource path method
        (((∅ : StringMap).insertMany (captures (splitPath resource) front)).insert (ascii "id") id)

/-- A path is taken by one kind of endpoint at most. -/
theorem ResourceTakes.unique {params params' : StringMap}
    (h : ResourceTakes resource path method params)
    (h' : ResourceTakes resource path method params') : params = params' := by
  have hlength : ∀ {front : List Bytes} {id : Bytes}, splitPath path = front ++ [id] →
      Agree (splitPath resource) front → ¬ Agree (splitPath resource) (splitPath path) := by
    intro front id hpath hfront hall
    have hlen := hfront.1.symm.trans hall.1
    rw [hpath, List.length_append, List.length_singleton] at hlen
    omega
  cases h with
  | collection _ hall =>
      cases h' with
      | collection => rfl
      | member _ hpath hfront => exact absurd hall (hlength hpath hfront)
  | member _ hpath hfront =>
      cases h' with
      | collection _ hall => exact absurd hall (hlength hpath hfront)
      | member _ hpath' _ =>
          obtain ⟨rfl, hid⟩ := List.append_inj' (hpath.symm.trans hpath') rfl
          rw [List.singleton_inj.mp hid]

/-- The pattern of a member takes the segments that the resource takes, and one more. -/
theorem takes_member_iff {segs : List Bytes} :
    List.Forall₂ SegmentTakes (splitPath (ascii "/" ++ resource ++ ascii "/:id")) segs ↔
      ∃ front id, segs = front ++ [id] ∧ Agree (splitPath resource) front := by
  rw [splitPath_member, forall₂_append_iff]
  constructor
  · rintro ⟨front, back, rfl, hfront, hback⟩
    obtain ⟨id, rfl⟩ := List.length_eq_one_iff.mp hback.length_eq.symm
    exact ⟨front, id, rfl, agree_iff.mpr hfront⟩
  · rintro ⟨front, id, rfl, hfront⟩
    exact ⟨front, [id], rfl, agree_iff.mp hfront, .cons (.inl rfl) .nil⟩

theorem insertMany_captures_member {front : List Bytes} (id : Bytes)
    (hfront : Agree (splitPath resource) front) :
    (∅ : StringMap).insertMany
        (captures (splitPath (ascii "/" ++ resource ++ ascii "/:id")) (front ++ [id])) =
      ((∅ : StringMap).insertMany (captures (splitPath resource) front)).insert
        (ascii "id") id := by
  have hid : captures [ascii ":id"] [id] = [(ascii "id", id)] := by rfl
  rw [splitPath_member, captures_append hfront.1, insertMany_append, hid,
    Std.ExtTreeMap.insertMany_cons, Std.ExtTreeMap.insertMany_nil]

/-- The routes that `addResource` appends take what the endpoints take. -/
theorem exists_takes_resource_iff (handler : Option (Handler W)) (middleware : List (Middleware W))
    {params : StringMap} :
    (∃ route ∈ (Registration.addResource resource handler middleware).entries,
        Route.Takes regex path method outParams route params) ↔
      ResourceTakes resource path method params := by
  constructor
  · rintro ⟨route, hroute, htakes⟩
    obtain ⟨⟨pattern, own⟩, hpattern, rfl⟩ := List.mem_map.mp hroute
    cases htakes with
    | regex _ hkind _ _ => cases hkind
    | pattern hmethod _ hsegments =>
        obtain rfl : own = method := hmethod
        have hends : (pattern = ascii "/" ++ resource ∧
              (own = ascii "GET" ∨ own = ascii "POST")) ∨
            (pattern = ascii "/" ++ resource ++ ascii "/:id" ∧
              (own = ascii "GET" ∨ own = ascii "PUT" ∨ own = ascii "DELETE")) := by
          simp only [resourcePatterns, List.mem_cons, Prod.mk.injEq, List.not_mem_nil,
            or_false] at hpattern
          tauto
        rcases hends with ⟨rfl, hown⟩ | ⟨rfl, hown⟩
        · have hall := agree_iff.mpr (splitPath_collection resource ▸ hsegments)
          rw [splitPath_collection]
          exact .collection hown hall
        · obtain ⟨front, id, hpath, hfront⟩ := takes_member_iff.mp hsegments
          rw [hpath, insertMany_captures_member id hfront]
          exact .member hown hpath hfront
  · intro htakes
    cases htakes with
    | collection hmethod hall =>
        have hsegments := agree_iff.mp hall
        rw [← splitPath_collection] at hsegments ⊢
        refine ⟨_, List.mem_map.mpr ⟨(ascii "/" ++ resource, method), ?_, rfl⟩,
          .pattern rfl rfl hsegments⟩
        rcases hmethod with rfl | rfl <;> simp [resourcePatterns]
    | @member front id hmethod hpath hfront =>
        have hsegments := takes_member_iff.mpr ⟨front, id, hpath, hfront⟩
        rw [← insertMany_captures_member id hfront, ← hpath]
        refine ⟨_, List.mem_map.mpr ⟨(ascii "/" ++ resource ++ ascii "/:id", method), ?_, rfl⟩,
          .pattern rfl rfl hsegments⟩
        rcases hmethod with rfl | rfl | rfl <;> simp [resourcePatterns]

/-- A resource serves the collection with GET and POST and its members with GET, PUT and
DELETE, behind the routes that were there before, with one handler and the same middleware.
What is behind the resource's own segments is captured as `id`, over a capture of this name
in the resource.  Every other request is looked up as without the resource. -/
theorem addResource_serves (regex : RegexEngine) {routes : List (Route W)}
    (htable : ∀ route ∈ routes, route.handler ≠ none) (resource : Bytes) (handler : Handler W)
    (middleware : List (Middleware W)) (path method : Bytes) (outParams : StringMap)
    (outMiddleware : List (Middleware W)) :
    let table := Router.addResource routes resource (some handler) middleware
    (∀ params, ResourceTakes resource path method params →
      findRoute regex path method outParams outMiddleware table =
        Found.orElse (findRoute regex path method outParams outMiddleware routes)
          (.ok ⟨some handler, params, middleware⟩)) ∧
    ((∀ params, ¬ ResourceTakes resource path method params) →
      findRoute regex path method outParams outMiddleware table =
        findRoute regex path method outParams outMiddleware routes) := by
  intro table
  have hcompiles : ∀ route ∈ (Registration.addResource resource (some handler) middleware).entries,
      route.Compiles regex := by
    intro route hroute htrue
    obtain ⟨pm, -, rfl⟩ := List.mem_map.mp hroute
    cases htrue
  have htable' : table =
      routes ++ (Registration.addResource resource (some handler) middleware).entries :=
    Registration.apply_eq routes (.addResource resource (some handler) middleware)
  rw [htable', findRoute_append htable]
  rcases noneTakes_or_firstTakes regex path method outParams
    (Registration.addResource resource (some handler) middleware).entries with
    hnone | ⟨route, params, hfirst⟩
  · rw [findRoute_of_noneTakes hnone hcompiles, orElse_findRoute_self htable]
    refine ⟨fun params htakes => ?_, fun _ => rfl⟩
    obtain ⟨route, hroute, htakes⟩ := (exists_takes_resource_iff _ _).mpr htakes
    exact absurd htakes (hnone route hroute params)
  · rw [findRoute_of_firstTakes hfirst hcompiles]
    obtain ⟨hroute, -⟩ := hfirst.mem
    obtain ⟨-, -, -, htakes, -⟩ := hfirst
    have htakes' := (exists_takes_resource_iff _ _).mp ⟨route, hroute, htakes⟩
    refine ⟨fun params' hparams' => ?_, fun hnot => absurd htakes' (hnot params)⟩
    rw [hparams'.unique htakes']
    obtain ⟨pm, -, rfl⟩ := List.mem_map.mp hroute
    rfl

end Resource

theorem addResource_serves_user :
    findRoute (fun _ => .ok fun _ => none) (ascii "/users/7") (ascii "PUT") ∅ []
        (Router.addResource [] (ascii "users") (some plainHandler) []) =
      .ok ⟨some plainHandler, ((∅ : StringMap).insertMany
        (captures (splitPath (ascii "users")) [ascii "users"])).insert (ascii "id") (ascii "7"),
        []⟩ :=
  (addResource_serves (fun _ => .ok fun _ => none) (by simp) (ascii "users") plainHandler []
    (ascii "/users/7") (ascii "PUT") ∅ []).1 _ (.member (by decide) (by decide +kernel)
      (agree_iff.mpr (by decide +kernel)))

end Fion
