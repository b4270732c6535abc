import Fion.Http.Url

/-!
# Origin-form targets

A target in origin form begins with `/` and is meant to name a path, a query and
a fragment of this server.  The parser treats it so only when `"://"` occurs
nowhere in it: `parseScheme` searches the whole target, query and fragment
included, before it looks at the first byte.

`parse_origin` describes the result without `"://"`, and `parse_scheme` says
that the scheme of a parsed URL is what `parseScheme` stored, which is never
empty when `"://"` was found behind a first `/`.  Together they say exactly when
a target is read by its own path (`ownPath_iff`).
-/

namespace Fion.Http

open Cpp (Bytes ascii chr substr_of_le substrFrom_of_le)
open Text (find lines)

/-- The bytes of a target before its first `?` or `#`. -/
def pathPart (raw : Bytes) : Bytes := raw.takeWhile fun b => b ≠ chr '?' && b ≠ chr '#'

/-- The bytes of a target behind its first `#`. -/
def fragmentPart (raw : Bytes) : Bytes := (raw.dropWhile (· ≠ chr '#')).tail

namespace URL

/-! ## The steps from position 0 -/

/-- From position 0, `parseFragment` cuts like `takeWhile`. -/
theorem parseFragment_zero (u : URL) (hu : u.anchor = []) (raw : Bytes) :
    parseFragment u raw 0 =
      .ok ({ u with anchor := fragmentPart raw }, raw.takeWhile (· ≠ chr '#')) := by
  rw [parseFragment, Text.findFrom_zero]
  cases hfind : find [chr '#'] raw with
  | none =>
      have hall : ∀ b ∈ raw, decide (b ≠ chr '#') = true := by
        intro b hb
        have habs := Text.find_singleton_eq_none_iff.mp hfind
        simpa using fun h : b = chr '#' => habs (h ▸ hb)
      have hfrag : fragmentPart raw = [] := by
        rw [fragmentPart, List.dropWhile_eq_nil_iff.mpr hall, List.tail_nil]
      rw [hfrag, List.takeWhile_eq_self_iff.mpr hall, ← hu]
  | some anchorPos =>
      have hle := Text.find_le (by simp) hfind
      obtain ⟨htake, hdrop⟩ := Text.take_of_find_singleton hfind
      simp only [List.length_singleton] at hle
      simp only [substrFrom_of_le hle, substr_of_le (Nat.zero_le _), List.drop_zero, htake, hdrop]
      rfl

/-- From position 0, `parseQuery` leaves the bytes before the first `?`. -/
theorem parseQuery_zero (u : URL) (url : Bytes) :
    ∃ params, parseQuery u url 0 =
      .ok ({ u with queryParameters := params }, url.takeWhile (· ≠ chr '?')) := by
  rw [parseQuery, Text.findFrom_zero]
  cases hfind : find [chr '?'] url with
  | none =>
      have hall : ∀ b ∈ url, decide (b ≠ chr '?') = true := by
        intro b hb
        have habs := Text.find_singleton_eq_none_iff.mp hfind
        simpa using fun h : b = chr '?' => habs (h ▸ hb)
      exact ⟨u.queryParameters, by rw [List.takeWhile_eq_self_iff.mpr hall]⟩
  | some queryPos =>
      have hle := Text.find_le (by simp) hfind
      simp only [List.length_singleton] at hle
      refine ⟨(lines (chr '&') (url.drop (queryPos + 1))).foldl storeParam u.queryParameters, ?_⟩
      simp only [substrFrom_of_le hle, substr_of_le (Nat.zero_le _), List.drop_zero,
        (Text.take_of_find_singleton hfind).1]
      rfl

/-- A target in origin form without `"://"` is read by its own path. -/
theorem parse_origin {raw : Bytes} (hslash : raw.head? = some (chr '/'))
    (hfind : find (ascii "://") raw = none) :
    ∃ params, parse raw = .ok
      { pathToResource := pathPart raw
        queryParameters := params
        anchor := fragmentPart raw } := by
  obtain ⟨rest, rfl⟩ : ∃ rest, raw = chr '/' :: rest := by
    cases raw with
    | nil => cases hslash
    | cons b rest => exact ⟨rest, by rw [Option.some.inj hslash]⟩
  set raw : Bytes := chr '/' :: rest with hraw
  obtain ⟨params, hquery⟩ :=
    parseQuery_zero { anchor := fragmentPart raw } (raw.takeWhile (· ≠ chr '#'))
  have hpath : (raw.takeWhile (· ≠ chr '#')).takeWhile (· ≠ chr '?') = pathPart raw := by
    rw [List.takeWhile_takeWhile]
    simp only [pathPart, Bool.decide_and, decide_eq_true_eq]
  have hfirst : (pathPart raw)[0]? = some (chr '/') := by
    rw [hraw, pathPart, List.takeWhile_cons_of_pos (by decide)]
    rfl
  refine ⟨params, ?_⟩
  have hscheme : parseScheme {} raw = ({}, 0) := by
    rw [parseScheme, hfind]
    exact if_pos hslash
  have hauth : parseAuthorityAndPath
      { queryParameters := params, anchor := fragmentPart raw } (pathPart raw) 0 =
      .ok { pathToResource := pathPart raw, queryParameters := params,
            anchor := fragmentPart raw } := by
    rw [parseAuthorityAndPath, if_pos hfirst, substrFrom_of_le (Nat.zero_le _), List.drop_zero]
    rfl
  rw [parse, if_neg (by simp [hraw]), hscheme]
  simp only [parseFragment_zero {} rfl raw]
  change (parseQuery { anchor := fragmentPart raw } _ 0 >>= _) = _
  rw [hquery, hpath]
  exact hauth

/-! ## The scheme of the result -/

theorem parseFragment_scheme {u u' : URL} {url url' : Bytes} {pos : Nat}
    (h : parseFragment u url pos = .ok (u', url')) : u'.scheme = u.scheme := by
  rw [parseFragment] at h
  split at h
  · cases h; rfl
  · obtain ⟨anchor, -, h⟩ := Cpp.bind_eq_ok.mp h
    obtain ⟨rest, -, h⟩ := Cpp.bind_eq_ok.mp h
    cases h; rfl

theorem parseQuery_scheme {u u' : URL} {url url' : Bytes} {pos : Nat}
    (h : parseQuery u url pos = .ok (u', url')) : u'.scheme = u.scheme := by
  rw [parseQuery] at h
  split at h
  · cases h; rfl
  · obtain ⟨queryString, -, h⟩ := Cpp.bind_eq_ok.mp h
    obtain ⟨rest, -, h⟩ := Cpp.bind_eq_ok.mp h
    cases h; rfl

theorem parseHostPort_scheme {u u' : URL} {hostPort : Bytes}
    (h : parseHostPort u hostPort = .ok u') : u'.scheme = u.scheme := by
  rw [parseHostPort] at h
  split_ifs at h with hempty hbracket
  · cases h; rfl
  · split at h
    · cases h
    · obtain ⟨domainName, -, h⟩ := Cpp.bind_eq_ok.mp h
      split_ifs at h
      · obtain ⟨portStr, -, h⟩ := Cpp.bind_eq_ok.mp h
        obtain ⟨port, -, h⟩ := Cpp.bind_eq_ok.mp h
        cases h; rfl
      · cases h; rfl
  · split at h
    · obtain ⟨domainName, -, h⟩ := Cpp.bind_eq_ok.mp h
      obtain ⟨portStr, -, h⟩ := Cpp.bind_eq_ok.mp h
      obtain ⟨port, -, h⟩ := Cpp.bind_eq_ok.mp h
      cases h; rfl
    · cases h; rfl

theorem parseAuthorityAndPath_scheme {u u' : URL} {url : Bytes} {pos : Nat}
    (h : parseAuthorityAndPath u url pos = .ok u') : u'.scheme = u.scheme := by
  rw [parseAuthorityAndPath] at h
  split_ifs at h
  · obtain ⟨path, -, h⟩ := Cpp.bind_eq_ok.mp h
    cases h; rfl
  · obtain ⟨⟨hostPort, path⟩, -, h⟩ := Cpp.bind_eq_ok.mp h
    obtain ⟨hostPort', -, h⟩ := Cpp.bind_eq_ok.mp h
    exact (parseHostPort_scheme h).trans rfl

/-- No step behind `parseScheme` changes the scheme. -/
theorem parse_scheme {raw : Bytes} {u : URL} (h : parse raw = .ok u) :
    u.scheme = (parseScheme {} raw).1.scheme := by
  by_cases hempty : raw = []
  · rw [parse, if_pos hempty] at h
    cases h
  · rw [parse, if_neg hempty] at h
    cases hps : parseScheme {} raw with
    | mk u₀ pos =>
        rw [hps] at h
        obtain ⟨⟨u₁, url₁⟩, h₁, h⟩ := Cpp.bind_eq_ok.mp h
        obtain ⟨⟨u₂, url₂⟩, h₂, h⟩ := Cpp.bind_eq_ok.mp h
        rw [parseAuthorityAndPath_scheme h, parseQuery_scheme h₂, parseFragment_scheme h₁]

/-- A first `/` in front of `"://"` becomes part of the scheme. -/
theorem parse_scheme_ne_nil {raw : Bytes} {u : URL} (hslash : raw.head? = some (chr '/'))
    (hfind : find (ascii "://") raw ≠ none) (h : parse raw = .ok u) : u.scheme ≠ [] := by
  obtain ⟨schemeEnd, hsome⟩ := Option.ne_none_iff_exists'.mp hfind
  obtain ⟨rest, rfl⟩ : ∃ rest, raw = chr '/' :: rest := by
    cases raw with
    | nil => cases hslash
    | cons b rest => exact ⟨rest, by rw [Option.some.inj hslash]⟩
  cases schemeEnd with
  | zero =>
      -- the occurrence would start at the slash
      obtain ⟨t, ht⟩ := (Text.find_eq_some_iff.mp hsome).1
      exact absurd (List.head_eq_of_cons_eq ht) (by decide)
  | succ k =>
      rw [parse_scheme h]
      simp [parseScheme, hsome, toLowerCopy]

end URL

/-- A target is read by its own path: no scheme, no authority, and the bytes in
front of the query and of the fragment are the path. -/
def OwnPath (raw : Bytes) : Prop :=
  ∃ u, URL.parse raw = .ok u ∧ u.scheme = [] ∧ u.domainName = [] ∧ u.port = 0 ∧
    u.pathToResource = pathPart raw ∧ u.anchor = fragmentPart raw

/-- A target in origin form is read by its own path exactly when `"://"` occurs
nowhere in it. -/
theorem ownPath_iff {raw : Bytes} (hslash : raw.head? = some (chr '/')) :
    OwnPath raw ↔ find (ascii "://") raw = none := by
  constructor
  · rintro ⟨u, hparse, hscheme, -⟩
    by_contra hfind
    exact URL.parse_scheme_ne_nil hslash hfind hparse hscheme
  · intro hfind
    obtain ⟨params, hparse⟩ := URL.parse_origin hslash hfind
    exact ⟨_, hparse, rfl, rfl, rfl, rfl, rfl⟩

end Fion.Http
