import Fion.Patterns
import Fion.Registration

/-!
# Groups

`addGroup` puts the prefix in front of the text of each pattern.  A route of a group
is under the prefix when it takes the paths whose segments the prefix and its own
pattern take one after the other (`UnderPrefix`).  That is so exactly when a slash, or
nothing, stands between the two texts: otherwise the last segment of the prefix and
the first one of the pattern grow together, and the path with a slash between them is
not taken (`underPrefix_iff`).
-/

namespace Fion

open Cpp (Bytes ascii chr)
open Text (Joined pieces)
open Http (StringMap)

variable {W : Type}

/-- A route takes a path when the segments of the path are some that the prefix takes
and then some that the route's own pattern takes, and it captures what both capture,
the own ones last. -/
structure UnderPrefix (regex : RegexEngine) (pathPrefix : Bytes) (own route : Route W) :
    Prop where
  takes : ∀ path, route.Matches regex path own.method ↔
    ∃ front back, splitPath path = front ++ back ∧ Agree (splitPath pathPrefix) front ∧
      Agree (splitPath own.pathPattern) back
  captures : ∀ path front back, splitPath path = front ++ back →
    Agree (splitPath pathPrefix) front → Agree (splitPath own.pathPattern) back →
      (matchPattern route.pathPattern path [] ∅).2.2 =
        ((∅ : StringMap).insertMany (captures (splitPath pathPrefix) front)).insertMany
          (captures (splitPath own.pathPattern) back)

/-- Nothing or a slash stands between two texts. -/
def SlashBetween (a b : Bytes) : Prop :=
  a = [] ∨ b = [] ∨ a.getLast? = some (chr '/') ∨ b.head? = some (chr '/')

instance (a b : Bytes) : Decidable (SlashBetween a b) :=
  inferInstanceAs (Decidable (_ ∨ _ ∨ _ ∨ _))

theorem slashBetween_iff {a b : Bytes} : SlashBetween a b ↔ ¬ Joined (chr '/') a b := by
  constructor
  · rintro h ⟨⟨x, hx, hxc⟩, y, hy, hyc⟩
    rcases h with rfl | rfl | hlast | hhead
    · cases hx
    · cases hy
    · exact hxc (Option.some.inj (hx.symm.trans hlast))
    · exact hyc (Option.some.inj (hy.symm.trans hhead))
  · intro h
    cases hx : a.getLast? with
    | none => exact .inl (List.getLast?_eq_none_iff.mp hx)
    | some x =>
        cases hy : b.head? with
        | none => exact .inr (.inl (List.head?_eq_none_iff.mp hy))
        | some y =>
            by_cases hxc : x = chr '/'
            · exact .inr (.inr (.inl (by rw [hx, hxc])))
            · by_cases hyc : y = chr '/'
              · exact .inr (.inr (.inr (by rw [hy, hyc])))
              · exact absurd ⟨⟨x, hx, hxc⟩, y, hy, hyc⟩ h

/-! ## Two patterns one after the other -/

/-- The segments that two lists of patterns take one after the other. -/
theorem forall₂_append_iff {pats pats' segs : List Bytes} :
    List.Forall₂ SegmentTakes (pats ++ pats') segs ↔
      ∃ front back, segs = front ++ back ∧ List.Forall₂ SegmentTakes pats front ∧
        List.Forall₂ SegmentTakes pats' back := by
  induction pats generalizing segs with
  | nil =>
      constructor
      · exact fun h => ⟨[], segs, rfl, .nil, h⟩
      · rintro ⟨front, back, rfl, hfront, hback⟩
        cases hfront
        exact hback
  | cons pat pats ih =>
      constructor
      · intro h
        cases h with
        | cons hpat hrest =>
            obtain ⟨front, back, rfl, hfront, hback⟩ := ih.mp hrest
            exact ⟨_ :: front, back, rfl, .cons hpat hfront, hback⟩
      · rintro ⟨front, back, rfl, hfront, hback⟩
        cases hfront with
        | cons hpat hrest => exact .cons hpat (ih.mpr ⟨_, back, rfl, hrest, hback⟩)

theorem captures_append {pats pats' front back : List Bytes}
    (hlen : pats.length = front.length) :
    captures (pats ++ pats') (front ++ back) = captures pats front ++ captures pats' back := by
  rw [captures, List.zip_append hlen, List.filter_append, List.map_append]
  rfl

theorem insertMany_append (m : StringMap) (kvs kvs' : List (Bytes × Bytes)) :
    m.insertMany (kvs ++ kvs') = (m.insertMany kvs).insertMany kvs' := by
  rw [Std.ExtTreeMap.insertMany_list_eq_foldl, List.foldl_append,
    ← Std.ExtTreeMap.insertMany_list_eq_foldl, ← Std.ExtTreeMap.insertMany_list_eq_foldl]

/-- A route that is no regex takes a path as its pattern does. -/
theorem matches_iff (regex : RegexEngine) (route : Route W) (hregex : route.isRegex = false)
    (path : Bytes) : route.Matches regex path route.method ↔
      List.Forall₂ SegmentTakes (splitPath route.pathPattern) (splitPath path) := by
  rw [Route.Matches, hregex]
  simp [matchPattern_iff]

/-! ## Routes of a group -/

/-- With a slash between them the segments of prefix and pattern stand behind each
other. -/
theorem underPrefix_of_slashBetween (regex : RegexEngine) {pathPrefix : Bytes} {own : Route W}
    (hregex : own.isRegex = false) (groupMiddleware : List (Middleware W))
    (h : SlashBetween pathPrefix own.pathPattern) :
    UnderPrefix regex pathPrefix own (own.inGroup pathPrefix groupMiddleware) := by
  have hsplit : splitPath (pathPrefix ++ own.pathPattern) =
      splitPath pathPrefix ++ splitPath own.pathPattern := by
    rw [splitPath_eq, splitPath_eq, splitPath_eq, Text.pieces_append (slashBetween_iff.mp h)]
  constructor
  · intro path
    have hmatches := matches_iff regex (own.inGroup pathPrefix groupMiddleware) hregex path
    rw [show (own.inGroup pathPrefix groupMiddleware).pathPattern =
      pathPrefix ++ own.pathPattern from rfl, hsplit, forall₂_append_iff] at hmatches
    simp only [agree_iff]
    exact hmatches
  · intro path front back hpath hfront hback
    rw [agree_iff] at hfront hback
    have htakes : List.Forall₂ SegmentTakes (splitPath (pathPrefix ++ own.pathPattern))
        (splitPath path) := by
      rw [hsplit, forall₂_append_iff]
      exact ⟨front, back, hpath, hfront, hback⟩
    obtain ⟨paramKeys, hresult⟩ := matchPattern_of_takes htakes
    show (matchPattern (pathPrefix ++ own.pathPattern) path [] ∅).2.2 = _
    rw [hresult, hsplit, hpath, captures_append hfront.length_eq, insertMany_append]

/-- Without one the path that has a slash between them is not taken. -/
theorem not_underPrefix_of_joined (regex : RegexEngine) {pathPrefix : Bytes} {own : Route W}
    (hregex : own.isRegex = false) (groupMiddleware : List (Middleware W))
    (h : Joined (chr '/') pathPrefix own.pathPattern) :
    ¬ UnderPrefix regex pathPrefix own (own.inGroup pathPrefix groupMiddleware) := by
  rintro ⟨htakes, -⟩
  have hrefl : ∀ pats : List Bytes, Agree pats pats := fun pats =>
    agree_iff.mpr (List.forall₂_same.mpr fun pat _ => .inr rfl)
  have hpath : splitPath (pathPrefix ++ chr '/' :: own.pathPattern) =
      splitPath pathPrefix ++ splitPath own.pathPattern := by
    rw [splitPath_eq, splitPath_eq, splitPath_eq,
      Text.pieces_append fun ⟨_, y, hy, hyc⟩ => hyc (Option.some.inj hy).symm,
      Text.pieces_cons_self]
  have hmatch := (htakes (pathPrefix ++ chr '/' :: own.pathPattern)).mpr
    ⟨_, _, hpath, hrefl _, hrefl _⟩
  have hlen := ((matches_iff regex (own.inGroup pathPrefix groupMiddleware)
    hregex _).mp hmatch).length_eq
  rw [hpath, List.length_append] at hlen
  have hless := Text.length_pieces_append h
  rw [← splitPath_eq, ← splitPath_eq, ← splitPath_eq] at hless
  have heq : (splitPath (pathPrefix ++ own.pathPattern)).length = _ := hlen
  omega

theorem underPrefix_iff (regex : RegexEngine) {pathPrefix : Bytes} {own : Route W}
    (hregex : own.isRegex = false) (groupMiddleware : List (Middleware W)) :
    UnderPrefix regex pathPrefix own (own.inGroup pathPrefix groupMiddleware) ↔
      SlashBetween pathPrefix own.pathPattern := by
  refine ⟨fun h => slashBetween_iff.mpr fun hjoined => ?_,
    underPrefix_of_slashBetween regex hregex groupMiddleware⟩
  exact not_underPrefix_of_joined regex hregex groupMiddleware hjoined h

/-- The routes that `addGroup` appends are all under the prefix exactly when a slash,
or nothing, stands between the prefix and each pattern of the group. -/
theorem addGroup_underPrefix_iff (regex : RegexEngine) (routes : List (Route W))
    (pathPrefix : Bytes) {groupRoutes : List (Route W)}
    (hregex : ∀ own ∈ groupRoutes, own.isRegex = false)
    (groupMiddleware : List (Middleware W)) :
    (∃ added, Router.addGroup routes pathPrefix groupRoutes groupMiddleware = routes ++ added ∧
      List.Forall₂ (UnderPrefix regex pathPrefix) groupRoutes added) ↔
      ∀ own ∈ groupRoutes, SlashBetween pathPrefix own.pathPattern := by
  have hadded : Router.addGroup routes pathPrefix groupRoutes groupMiddleware =
      routes ++ groupRoutes.map fun own => own.inGroup pathPrefix groupMiddleware :=
    Registration.apply_eq routes (.addGroup pathPrefix groupRoutes groupMiddleware)
  have hall : List.Forall₂ (UnderPrefix regex pathPrefix) groupRoutes
      (groupRoutes.map fun own => own.inGroup pathPrefix groupMiddleware) ↔
      ∀ own ∈ groupRoutes, SlashBetween pathPrefix own.pathPattern := by
    rw [List.forall₂_map_right_iff, List.forall₂_same]
    exact forall₂_congr fun own hown => underPrefix_iff regex (hregex own hown) groupMiddleware
  rw [hadded, ← hall]
  constructor
  · rintro ⟨added, heq, hunder⟩
    rw [List.append_cancel_left heq]
    exact hunder
  · exact fun h => ⟨_, rfl, h⟩

/-- A route of a group, without handler. -/
def groupRoute (pathPattern : Bytes) : Route Unit where
  pathPattern := pathPattern
  method := ascii "GET"
  handler := none

theorem addGroup_underPrefix_iff_api :
    ∃ added, Router.addGroup [] (ascii "/api") [groupRoute (ascii "/users/:id")] [] = [] ++ added ∧
      List.Forall₂ (UnderPrefix (fun _ => .ok fun _ => none) (ascii "/api"))
        [groupRoute (ascii "/users/:id")] added := by
  have hslash : ∀ own ∈ [groupRoute (ascii "/users/:id")],
      SlashBetween (ascii "/api") own.pathPattern := by
    intro own hown
    obtain rfl := List.mem_singleton.mp hown
    decide
  exact (addGroup_underPrefix_iff _ [] (ascii "/api") (by simp [groupRoute]) []).mpr hslash

/-- The pattern `users` in the group `/api` is the pattern `/apiusers`, which does not
take `/api/users`. -/
theorem not_underPrefix_apiusers :
    ¬ ∃ added, Router.addGroup [] (ascii "/api") [groupRoute (ascii "users")] [] = [] ++ added ∧
      List.Forall₂ (UnderPrefix (fun _ => .ok fun _ => none) (ascii "/api"))
        [groupRoute (ascii "users")] added := by
  rintro ⟨added, heq, hunder⟩
  obtain rfl : [(groupRoute (ascii "users")).inGroup (ascii "/api") []] = added := heq
  have hjoined : Joined (chr '/') (ascii "/api") (ascii "users") :=
    ⟨⟨chr 'i', by decide⟩, chr 'u', by decide⟩
  cases hunder with
  | cons hfirst _ => exact not_underPrefix_of_joined _ rfl [] hjoined hfirst

end Fion
