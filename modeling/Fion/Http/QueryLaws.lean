import Fion.Http.UrlText

/-!
# Laws of the query

`parseQuery` reads the text behind the first `?` with `getline`, which skips nothing
and returns no empty line at the end.  Empty lines are not stored, so what the loop
stores are the pieces of the query between its `&`, each cut at its first `=`
(`readQuery_eq`), and the map is one in which the last piece with a key wins.

From this the query is compositional: a `&` lays the parameters of what follows over
those of what stands in front of it (`query_compositional`).
-/

namespace Fion.Http

open Cpp (Bytes Exn ascii chr)
open Text (lines before after pieces)

namespace URL

/-- Parts without `&` are stored in order. -/
theorem readQuery_intercalate {ps : List Bytes} (hps : ∀ p ∈ ps, chr '&' ∉ p) :
    readQuery ([chr '&'].intercalate ps) =
      (∅ : StringMap).insertMany ((ps.filter (· ≠ [])).map paramOf) := by
  rw [readQuery_eq, Text.pieces_intercalate hps]

/-! ## What `parseQuery` stores -/

/-- Behind the position, `parseQuery` reads the text behind the first `?`. -/
theorem parseQuery_append_query {u : URL} (hu : u.queryParameters = ∅) (pre : Bytes) {s : Bytes}
    (hs : chr '?' ∉ s) (q : Bytes) :
    parseQuery u (pre ++ s ++ chr '?' :: q) pre.length =
      .ok ({ u with queryParameters := readQuery q }, pre ++ s) := by
  have hcut := parseQuery_append u hu pre (s ++ chr '?' :: q)
  rwa [Text.before_append_sep hs, Text.after_append_sep hs, ← List.append_assoc] at hcut

/-- The parameters of an accepted URL are those of its query text. -/
theorem queryParameters_of_parse {raw : Bytes} {u : URL} (h : parse raw = .ok u) :
    u.queryParameters = readQuery (queryText raw) := by
  obtain ⟨-, rfl⟩ := parse_eq_ok_iff.mp h
  rfl

/-! ## The laws -/

/-- A `&` lays the parameters behind it over those in front of it. -/
theorem readQuery_append (q₁ q₂ : Bytes) :
    readQuery (q₁ ++ chr '&' :: q₂) = readQuery q₁ ∪ readQuery q₂ := by
  rw [readQuery_eq, readQuery_eq, readQuery_eq, Text.pieces_append_cons, List.map_append,
    LastWins.insertMany_append_eq_union]

/-- A query without `&` is one parameter, or nothing. -/
theorem readQuery_of_not_mem {q : Bytes} (hq : chr '&' ∉ q) :
    readQuery q =
      if q = [] then ∅
      else if chr '=' ∈ q then
        (∅ : StringMap).insert (before (chr '=') q) (after (chr '=') q)
      else (∅ : StringMap).insert q [] := by
  rw [readQuery_eq, Text.pieces_of_not_mem hq]
  split_ifs with hnil heq
  · exact Std.ExtTreeMap.insertMany_nil
  · exact Std.ExtTreeMap.insertMany_list_singleton
  · rw [List.map_singleton, paramOf, Text.before_of_not_mem heq, Text.after_of_not_mem heq]
    exact Std.ExtTreeMap.insertMany_list_singleton

/-- A key has the value of the last piece with that key. -/
theorem getElem?_readQuery (q key : Bytes) :
    (readQuery q)[key]? =
      ((q.splitOn (chr '&')).filter fun p => p ≠ [] ∧ before (chr '=') p = key).getLast?.map
        (after (chr '=')) := by
  have hfilter : ((pieces (chr '&') q).map paramOf).filter (·.1 = key) =
      ((q.splitOn (chr '&')).filter fun p => p ≠ [] ∧ before (chr '=') p = key).map paramOf := by
    rw [Text.pieces_eq_splitOn, List.filter_map, List.filter_filter]
    congr 1
    refine List.filter_congr fun p _ => Bool.eq_iff_iff.mpr ?_
    rw [Bool.and_eq_true, Function.comp_apply, decide_eq_true_iff, decide_eq_true_iff,
      decide_eq_true_iff, and_comm]
    exact Iff.rfl
  rw [readQuery_eq, LastWins.getElem?_insertMany_empty, LastWins.last, hfilter,
    List.getLast?_map, Option.map_map]
  rfl

/-- Pieces with different keys can be put in any order. -/
theorem readQuery_perm {ps qs : List Bytes} (hperm : ps.Perm qs) (hps : ∀ p ∈ ps, chr '&' ∉ p)
    (hkeys : ((ps.filter (· ≠ [])).map (before (chr '='))).Nodup) :
    readQuery ([chr '&'].intercalate ps) = readQuery ([chr '&'].intercalate qs) := by
  have hqs : ∀ q ∈ qs, chr '&' ∉ q := fun q hq => hps q (hperm.mem_iff.mpr hq)
  rw [readQuery_intercalate hps, readQuery_intercalate hqs]
  refine LastWins.insertMany_perm ((hperm.filter _).map paramOf) ?_
  rwa [List.map_map]

/-- Two neighbours with different keys can change places, whatever the other pieces
are. -/
theorem readQuery_swap {ps qs : List Bytes} {p q : Bytes}
    (hmem : ∀ r ∈ ps ++ p :: q :: qs, chr '&' ∉ r)
    (hkeys : before (chr '=') p ≠ before (chr '=') q) :
    readQuery ([chr '&'].intercalate (ps ++ p :: q :: qs)) =
      readQuery ([chr '&'].intercalate (ps ++ q :: p :: qs)) := by
  have hperm : (ps ++ p :: q :: qs).Perm (ps ++ q :: p :: qs) :=
    (List.Perm.swap q p qs).append_left ps
  rw [readQuery_intercalate hmem, readQuery_intercalate fun r hr => hmem r (hperm.mem_iff.mpr hr)]
  by_cases hp : p = []
  · simp [hp, List.filter_cons]
  by_cases hq : q = []
  · simp [hq, List.filter_cons]
  have hswap := LastWins.insertMany_swap (paramOf p) (paramOf q) hkeys
    ((ps.filter (· ≠ [])).map paramOf) ((qs.filter (· ≠ [])).map paramOf)
  simpa [hp, hq] using hswap

/-- The query is compositional and its last parameter with a key wins.  `parseQuery`
stores `readQuery` of the text behind the first `?`, and so does the constructor.  Then
`&` overlays, a text without `&` is at most one parameter, a key has the value of its
last piece, empty pieces do not count, and pieces with different keys may change places. -/
theorem query_compositional :
    (∀ (u : URL) (pre s q : Bytes), u.queryParameters = ∅ → chr '?' ∉ s →
      parseQuery u (pre ++ s ++ chr '?' :: q) pre.length =
        .ok ({ u with queryParameters := readQuery q }, pre ++ s)) ∧
    (∀ (raw : Bytes) (u : URL), parse raw = .ok u →
      u.queryParameters = readQuery (queryText raw)) ∧
    (∀ q₁ q₂ : Bytes, readQuery (q₁ ++ chr '&' :: q₂) = readQuery q₁ ∪ readQuery q₂) ∧
    (∀ q : Bytes, chr '&' ∉ q → readQuery q =
      if q = [] then ∅
      else if chr '=' ∈ q then
        (∅ : StringMap).insert (before (chr '=') q) (after (chr '=') q)
      else (∅ : StringMap).insert q []) ∧
    (∀ q key : Bytes, (readQuery q)[key]? =
      ((q.splitOn (chr '&')).filter fun p => p ≠ [] ∧ before (chr '=') p = key).getLast?.map
        (after (chr '='))) ∧
    (∀ ps : List Bytes, (∀ p ∈ ps, chr '&' ∉ p) →
      readQuery ([chr '&'].intercalate ps) =
        readQuery ([chr '&'].intercalate (ps.filter (· ≠ [])))) ∧
    (∀ ps qs : List Bytes, ps.Perm qs → (∀ p ∈ ps, chr '&' ∉ p) →
      ((ps.filter (· ≠ [])).map (before (chr '='))).Nodup →
      readQuery ([chr '&'].intercalate ps) = readQuery ([chr '&'].intercalate qs)) ∧
    (∀ (ps qs : List Bytes) (p q : Bytes), (∀ r ∈ ps ++ p :: q :: qs, chr '&' ∉ r) →
      before (chr '=') p ≠ before (chr '=') q →
      readQuery ([chr '&'].intercalate (ps ++ p :: q :: qs)) =
        readQuery ([chr '&'].intercalate (ps ++ q :: p :: qs))) := by
  refine ⟨fun u pre s q hu hs => parseQuery_append_query hu pre hs q,
    fun raw u h => queryParameters_of_parse h, readQuery_append,
    fun q hq => readQuery_of_not_mem hq, getElem?_readQuery, fun ps hps => ?_,
    fun ps qs hperm hps hkeys => readQuery_perm hperm hps hkeys,
    fun ps qs p q hmem hkeys => readQuery_swap hmem hkeys⟩
  have hkept : ∀ p ∈ ps.filter (· ≠ []), chr '&' ∉ p := fun p hp =>
    hps p (List.mem_of_mem_filter hp)
  rw [readQuery_intercalate hps, readQuery_intercalate hkept, List.filter_filter]
  simp only [Bool.and_self]

end URL

end Fion.Http
