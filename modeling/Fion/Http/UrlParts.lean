import Fion.Http.Url
import Fion.Text.Cut

/-!
# The parts of a raw URL

The constructor keeps a position into a working string that it shortens twice.
Every cut is at one character behind that position, so the parts can be named
without positions: `afterScheme`, the fragment and the query behind it, the
`remainder` in front of both, and the authority and path of the remainder.
`parse_eq` says that the constructor computes these parts and then reads host
and port out of the authority, where alone it can fail.

`Rejects` says when it does.  Its one error is `std::invalid_argument`, since
no cut is ever out of range and a port is checked before it is converted.
-/

namespace Fion.Http

open Cpp (Bytes Exn ascii chr substr substrFrom sizeSub isdigit stoi decimal)
open Text (find findFrom rfind lines before after)

namespace URL

/-! ## Parts -/

/-- The scheme that `parseScheme` stores. -/
def schemePart (raw : Bytes) : Bytes :=
  match find (ascii "://") raw with
  | some schemeEnd => toLowerCopy (raw.take schemeEnd)
  | none => if raw.head? = some (chr '/') then [] else ascii "http"

/-- What remains behind the first `"://"`, if there is one. -/
def afterScheme (raw : Bytes) : Bytes :=
  match find (ascii "://") raw with
  | some schemeEnd => raw.drop (schemeEnd + 3)
  | none => raw

/-- The text behind the first `#`. -/
def anchorText (raw : Bytes) : Bytes := after (chr '#') (afterScheme raw)

/-- The text between the first `?` and the first `#`. -/
def queryText (raw : Bytes) : Bytes := after (chr '?') (before (chr '#') (afterScheme raw))

/-- What remains in front of the first `#` and then the first `?`. -/
def remainder (raw : Bytes) : Bytes := before (chr '?') (before (chr '#') (afterScheme raw))

/-- An authority without its user info. -/
def withoutUserInfo (hostPort : Bytes) : Bytes :=
  if chr '@' ∈ hostPort then after (chr '@') hostPort else hostPort

/-- The authority of a remainder; one that begins with `/` has none. -/
def authority (raw : Bytes) : Bytes := withoutUserInfo (before (chr '/') (remainder raw))

/-- The path of a remainder. -/
def pathText (rest : Bytes) : Bytes :=
  if chr '/' ∈ rest then chr '/' :: after (chr '/') rest else ascii "/"

/-- The parameters of a query string. -/
def readQuery (query : Bytes) : StringMap := (lines (chr '&') query).foldl storeParam ∅

/-- The domain name that an authority names. -/
def hostText (hostPort : Bytes) : Bytes :=
  if hostPort.head? = some (chr '[') then before (chr ']') hostPort ++ [chr ']']
  else
    match rfind (chr ':') hostPort with
    | some colonPos => hostPort.take colonPos
    | none => hostPort

/-- The port text of an authority: behind `"]:"` or behind the last colon. -/
def portText (hostPort : Bytes) : Option Bytes :=
  if hostPort.head? = some (chr '[') then
    if (after (chr ']') hostPort).head? = some (chr ':') then
      some (after (chr ']') hostPort).tail
    else none
  else (rfind (chr ':') hostPort).map fun colonPos => hostPort.drop (colonPos + 1)

/-- A port text that is accepted. -/
def ValidPort (portStr : Bytes) : Prop :=
  portStr ≠ [] ∧ portStr.all isdigit = true ∧ decimal portStr ≤ 65535

/-- The port of an authority. -/
def portPart (scheme hostPort : Bytes) : UInt16 :=
  if hostPort = [] then 0
  else
    match portText hostPort with
    | some portStr => UInt16.ofNat (decimal portStr)
    | none => fallbackPort scheme

/-- The object for a raw string that is accepted. -/
def read (raw : Bytes) : URL where
  scheme := schemePart raw
  domainName := hostText (authority raw)
  port := portPart (schemePart raw) (authority raw)
  pathToResource := pathText (remainder raw)
  queryParameters := readQuery (queryText raw)
  anchor := anchorText raw

/-- An authority that is refused: a bracket that is not closed, or a port text
that is no port. -/
def RefusedAuthority (hostPort : Bytes) : Prop :=
  hostPort.head? = some (chr '[') ∧ chr ']' ∉ hostPort ∨
    ∃ portStr, portText hostPort = some portStr ∧ ¬ ValidPort portStr

/-- A raw string that is refused. -/
def Rejects (raw : Bytes) : Prop :=
  raw = [] ∨ (remainder raw).head? ≠ some (chr '/') ∧ authority raw ≠ [] ∧
    RefusedAuthority (authority raw)

/-! ## Ports -/

/-- `stoi` reads digits that denote a small number as that number. -/
theorem stoi_digits {ds : Bytes} (hne : ds ≠ []) (hds : ds.all isdigit = true) :
    stoi ds = if decimal ds < 2 ^ 31 then .ok (decimal ds : Int)
      else .error (.outOfRange "stoi") := by
  have hscan : Cpp.scanNumber (ds ++ []) = (false, ds) :=
    Cpp.scanNumber_digits hne (List.all_eq_true.mp hds) (by simp)
  rw [List.append_nil] at hscan
  rw [stoi, hscan]
  cases ds with
  | nil => exact absurd rfl hne
  | cons b t =>
      simp only [Bool.false_eq_true, if_false]
      by_cases hlt : decimal (b :: t) < 2 ^ 31
      · rw [if_pos hlt, if_pos (by omega)]
      · rw [if_neg hlt, if_neg (by omega)]

theorem parsePortNumber_of_valid {portStr : Bytes} (h : ValidPort portStr) :
    parsePortNumber portStr = .ok (UInt16.ofNat (decimal portStr)) := by
  obtain ⟨hne, hdigits, hle⟩ := h
  rw [parsePortNumber, if_neg hne, if_neg (by simpa using hdigits), stoi_digits hne hdigits,
    if_pos (by omega)]
  simp only [Int.toNat_natCast]
  rw [if_neg (by omega)]

/-- Any other text, of any length, is an invalid argument. -/
theorem parsePortNumber_of_not_valid {portStr : Bytes} (h : ¬ ValidPort portStr) :
    ∃ what, parsePortNumber portStr = .error (.invalidArgument what) := by
  by_cases hempty : portStr = []
  · exact ⟨_, by rw [parsePortNumber, if_pos hempty]⟩
  by_cases hdigits : portStr.all isdigit = true
  · rw [parsePortNumber, if_neg hempty, if_neg (not_not_intro hdigits),
      stoi_digits hempty hdigits]
    have hlarge : ¬ decimal portStr ≤ 65535 := fun hle => h ⟨hempty, hdigits, hle⟩
    by_cases hlt : decimal portStr < 2 ^ 31
    · simp only [if_pos hlt]
      rw [if_pos (by omega)]
      exact ⟨_, rfl⟩
    · simp only [if_neg hlt]
      exact ⟨_, rfl⟩
  · exact ⟨_, by rw [parsePortNumber, if_neg hempty, if_pos hdigits]⟩

/-! ## Cutting behind a prefix -/

/-- `parseFragment` cuts what stands behind the position. -/
theorem parseFragment_append (u : URL) (hu : u.anchor = []) (pre s : Bytes) :
    parseFragment u (pre ++ s) pre.length =
      .ok ({ u with anchor := after (chr '#') s }, pre ++ before (chr '#') s) := by
  rw [parseFragment, Text.findFrom_append]
  rcases Text.find_singleton (chr '#') s with ⟨habs, hfind⟩ | ⟨hmem, hfind⟩
  · rw [hfind, Text.after_of_not_mem habs, Text.before_of_not_mem habs, ← hu]
    rfl
  · have hlt := Text.length_before_lt hmem
    have hle : (before (chr '#') s).length + pre.length + 1 ≤ (pre ++ s).length := by
      rw [List.length_append]; omega
    simp only [hfind, Option.map_some, Cpp.substrFrom_of_le hle, Cpp.substr_of_le (Nat.zero_le _),
      Text.drop_succ_append hmem, List.drop_zero, (Text.take_drop_append hmem pre).1]
    rfl

/-- `parseQuery` does the same at the first `?`. -/
theorem parseQuery_append (u : URL) (hu : u.queryParameters = ∅) (pre s : Bytes) :
    parseQuery u (pre ++ s) pre.length =
      .ok ({ u with queryParameters := readQuery (after (chr '?') s) },
        pre ++ before (chr '?') s) := by
  rw [parseQuery, Text.findFrom_append]
  rcases Text.find_singleton (chr '?') s with ⟨habs, hfind⟩ | ⟨hmem, hfind⟩
  · rw [hfind, Text.after_of_not_mem habs, Text.before_of_not_mem habs]
    have hread : readQuery [] = u.queryParameters := by rw [hu]; rfl
    rw [hread]
    rfl
  · have hlt := Text.length_before_lt hmem
    have hle : (before (chr '?') s).length + pre.length + 1 ≤ (pre ++ s).length := by
      rw [List.length_append]; omega
    simp only [hfind, Option.map_some, Cpp.substrFrom_of_le hle, Cpp.substr_of_le (Nat.zero_le _),
      Text.drop_succ_append hmem, List.drop_zero, (Text.take_drop_append hmem pre).1, hu]
    rfl

/-- `splitAuthority` cuts at the first `/`. -/
theorem splitAuthority_append (pre rest : Bytes) :
    splitAuthority (pre ++ rest) pre.length =
      .ok (before (chr '/') rest, pathText rest) := by
  rw [splitAuthority, Text.findFrom_append]
  have hle : pre.length ≤ (pre ++ rest).length := by rw [List.length_append]; omega
  rcases Text.find_singleton (chr '/') rest with ⟨habs, hfind⟩ | ⟨hmem, hfind⟩
  · simp only [hfind, Option.map_none, Cpp.substrFrom_of_le hle, List.drop_left,
      Text.before_of_not_mem habs, pathText, if_neg habs]
    rfl
  · have hlt := Text.length_before_lt hmem
    have hle' : (before (chr '/') rest).length + pre.length ≤ (pre ++ rest).length := by
      rw [List.length_append]; omega
    have htake := List.prefix_iff_eq_take.mp (Text.before_isPrefix (chr '/') rest)
    simp only [hfind, Option.map_some, Cpp.substr_of_le hle, Cpp.substrFrom_of_le hle',
      Cpp.sizeSub_of_le (Nat.le_add_left _ _), Nat.add_sub_cancel, List.drop_left, ← htake,
      (Text.take_drop_append hmem pre).2, pathText, if_pos hmem]
    rfl

theorem stripUserInfo_eq (hostPort : Bytes) :
    stripUserInfo hostPort = .ok (withoutUserInfo hostPort) := by
  rw [stripUserInfo, withoutUserInfo]
  rcases Text.find_singleton (chr '@') hostPort with ⟨habs, hfind⟩ | ⟨hmem, hfind⟩
  · rw [hfind, if_neg habs]
  · have hle : (before (chr '@') hostPort).length + 1 ≤ hostPort.length :=
      Text.length_before_lt hmem
    simp only [hfind, Cpp.substrFrom_of_le hle, (Text.drop_before hmem).2, if_pos hmem]

/-- A remainder that begins with `/` is its own path and has no authority. -/
theorem of_head?_slash {rest : Bytes} (h : rest.head? = some (chr '/')) :
    before (chr '/') rest = [] ∧ pathText rest = rest := by
  cases rest with
  | nil => cases h
  | cons b rest =>
      obtain rfl := Option.some.inj h
      have hcut := Text.before_append_sep (c := chr '/') List.not_mem_nil rest
      have hafter := Text.after_append_sep (c := chr '/') List.not_mem_nil rest
      rw [List.nil_append] at hcut hafter
      exact ⟨hcut, by rw [pathText, if_pos List.mem_cons_self, hafter]⟩

/-- Authority and path of what stands behind the position. -/
theorem parseAuthorityAndPath_append (u : URL) (hu : u.domainName = [] ∧ u.port = 0)
    (pre rest : Bytes) :
    parseAuthorityAndPath u (pre ++ rest) pre.length =
      parseHostPort { u with pathToResource := pathText rest }
        (withoutUserInfo (before (chr '/') rest)) := by
  have hhead : (pre ++ rest)[pre.length]? = rest.head? := by
    rw [List.getElem?_append_right (le_refl _), Nat.sub_self, List.head?_eq_getElem?]
  rw [parseAuthorityAndPath, hhead]
  split_ifs with hslash
  · obtain ⟨hbefore, hpath⟩ := of_head?_slash hslash
    rw [hbefore, hpath, Cpp.substrFrom_of_le (by simp), List.drop_left, withoutUserInfo,
      if_neg List.not_mem_nil, parseHostPort, if_pos rfl, ← hu.1, ← hu.2]
    rfl
  · rw [splitAuthority_append]
    simp only [Cpp.ok_bind, stripUserInfo_eq]

/-! ## The constructor -/

/-- What `parseScheme` stores, and where it stops. -/
theorem parseScheme_eq (raw : Bytes) :
    ∃ pre, raw = pre ++ afterScheme raw ∧
      parseScheme {} raw = ({ scheme := schemePart raw }, pre.length) := by
  cases hfind : find (ascii "://") raw with
  | none =>
      refine ⟨[], by rw [afterScheme, hfind, List.nil_append], ?_⟩
      rw [parseScheme, schemePart, hfind]
      split_ifs with hslash
      · rfl
      · rfl
  | some schemeEnd =>
      have hle : schemeEnd + 3 ≤ raw.length := Text.find_le (by decide) hfind
      refine ⟨raw.take (schemeEnd + 3), by rw [afterScheme, hfind, List.take_append_drop], ?_⟩
      rw [parseScheme, schemePart, hfind, List.length_take, Nat.min_eq_left hle]

/-- The constructor cuts a raw string into its parts and reads the authority. -/
theorem parse_eq {raw : Bytes} (hne : raw ≠ []) :
    parse raw = parseHostPort
      { scheme := schemePart raw
        pathToResource := pathText (remainder raw)
        queryParameters := readQuery (queryText raw)
        anchor := anchorText raw } (authority raw) := by
  obtain ⟨pre, hraw, hscheme⟩ := parseScheme_eq raw
  have hfragment := parseFragment_append { scheme := schemePart raw } rfl pre (afterScheme raw)
  rw [← hraw] at hfragment
  rw [parse, if_neg hne, hscheme]
  simp only
  rw [hfragment, Cpp.ok_bind]
  simp only
  rw [parseQuery_append _ rfl, Cpp.ok_bind]
  simp only
  rw [parseAuthorityAndPath_append _ ⟨rfl, rfl⟩]
  rfl

/-! ## Host and port -/

/-- The text behind `"]:"` or the last colon, as `parseHostPort` finds it. -/
theorem bracket_parts {hostPort : Bytes} (hmem : chr ']' ∈ hostPort) :
    find [chr ']'] hostPort = some (before (chr ']') hostPort).length ∧
      hostPort.take ((before (chr ']') hostPort).length + 1) =
        before (chr ']') hostPort ++ [chr ']'] ∧
      hostPort.drop ((before (chr ']') hostPort).length + 1) = after (chr ']') hostPort := by
  have hfind : find [chr ']'] hostPort = some (before (chr ']') hostPort).length := by
    rcases Text.find_singleton (chr ']') hostPort with ⟨habs, -⟩ | ⟨-, hfind⟩
    · exact absurd hmem habs
    · exact hfind
  exact ⟨hfind, Text.take_succ_before hmem, (Text.drop_before hmem).2⟩

/-- `parseHostPort` on an authority, in terms of its parts. -/
theorem parseHostPort_eq (u : URL) {hostPort : Bytes} (hne : hostPort ≠ []) :
    parseHostPort u hostPort =
      if hostPort.head? = some (chr '[') ∧ chr ']' ∉ hostPort then
        .error (.invalidArgument "Malformed IPv6 address")
      else
        match portText hostPort with
        | some portStr => do
            let port ← parsePortNumber portStr
            return { u with domainName := hostText hostPort, port := port }
        | none =>
            .ok { u with domainName := hostText hostPort, port := fallbackPort u.scheme } := by
  rw [parseHostPort, if_neg hne]
  by_cases hbracket : hostPort.head? = some (chr '[')
  · rw [if_pos hbracket]
    by_cases hmem : chr ']' ∈ hostPort
    · obtain ⟨hfind, htake, hdrop⟩ := bracket_parts hmem
      have hnext : hostPort[(before (chr ']') hostPort).length + 1]? =
          (after (chr ']') hostPort).head? := by
        rw [← hdrop, List.head?_drop]
      rw [if_neg (by simp [hmem]), hfind, portText, hostText, if_pos hbracket, if_pos hbracket]
      simp only [Cpp.substr_of_le (Nat.zero_le _), List.drop_zero, htake, Cpp.ok_bind, hnext]
      by_cases hcolon : (after (chr ']') hostPort).head? = some (chr ':')
      · have hle : (before (chr ']') hostPort).length + 2 ≤ hostPort.length := by
          have hlen := congrArg List.length hdrop
          rw [List.length_drop] at hlen
          cases hafter : after (chr ']') hostPort with
          | nil => rw [hafter] at hcolon; cases hcolon
          | cons b rest => rw [hafter, List.length_cons] at hlen; omega
        have hport : hostPort.drop ((before (chr ']') hostPort).length + 2) =
            (after (chr ']') hostPort).tail := by
          rw [← hdrop, List.tail_drop]
        simp only [if_pos hcolon, Cpp.substrFrom_of_le hle, hport, Cpp.ok_bind]
      · simp only [if_neg hcolon]
        rfl
    · rw [Text.find_singleton_eq_none_iff.mpr hmem, if_pos ⟨hbracket, hmem⟩]
  · rw [if_neg hbracket, if_neg fun h => hbracket h.1, portText, hostText, if_neg hbracket,
      if_neg hbracket]
    cases hlast : rfind (chr ':') hostPort with
    | none => rfl
    | some colonPos =>
        have hle := Text.rfind_lt hlast
        simp only [Cpp.substr_of_le (Nat.zero_le _), List.drop_zero, Cpp.substrFrom_of_le hle,
          Cpp.ok_bind, Option.map_some]

/-- An authority that is not refused is read into host and port. -/
theorem parseHostPort_of_not_refused (u : URL) {hostPort : Bytes}
    (h : ¬ RefusedAuthority hostPort) :
    parseHostPort u hostPort =
      .ok { u with domainName := hostText hostPort, port := portPart u.scheme hostPort } := by
  by_cases hne : hostPort = []
  · subst hne
    rfl
  · rw [RefusedAuthority, not_or] at h
    rw [parseHostPort_eq u hne, if_neg h.1, portPart, if_neg hne]
    cases hport : portText hostPort with
    | none => rfl
    | some portStr =>
        have hvalid : ValidPort portStr := by
          by_contra hnot
          exact h.2 ⟨portStr, hport, hnot⟩
        simp only [parsePortNumber_of_valid hvalid, Cpp.ok_bind]
        rfl

/-- An empty authority is not refused. -/
theorem not_refused_nil : ¬ RefusedAuthority [] := by
  rintro (⟨hhead, -⟩ | ⟨portStr, hport, -⟩)
  · cases hhead
  · cases hport

/-- A refused authority is an invalid argument. -/
theorem parseHostPort_of_refused (u : URL) {hostPort : Bytes} (h : RefusedAuthority hostPort) :
    ∃ what, parseHostPort u hostPort = .error (.invalidArgument what) := by
  have hne : hostPort ≠ [] := by
    rintro rfl
    exact not_refused_nil h
  rw [parseHostPort_eq u hne]
  by_cases hopen : hostPort.head? = some (chr '[') ∧ chr ']' ∉ hostPort
  · exact ⟨_, if_pos hopen⟩
  · obtain ⟨portStr, hport, hinvalid⟩ := h.resolve_left hopen
    obtain ⟨what, herror⟩ := parsePortNumber_of_not_valid hinvalid
    rw [if_neg hopen, hport]
    exact ⟨what, by simp only [herror]; rfl⟩

/-! ## What is accepted -/

/-- A string whose remainder begins with `/` has no authority to refuse. -/
theorem rejects_iff {raw : Bytes} :
    Rejects raw ↔ raw = [] ∨ RefusedAuthority (authority raw) := by
  refine or_congr_right ⟨fun h => h.2.2, fun h => ⟨fun hslash => ?_, ?_, h⟩⟩
  · have hnil : authority raw = [] := by
      rw [authority, (of_head?_slash hslash).1, withoutUserInfo, if_neg List.not_mem_nil]
    exact not_refused_nil (hnil ▸ h)
  · rintro hnil
    exact not_refused_nil (hnil ▸ h)

/-- The constructor returns the parts of a raw string, or refuses it with
`std::invalid_argument`. -/
theorem parse_cases (raw : Bytes) :
    (¬ Rejects raw ∧ parse raw = .ok (read raw)) ∨
      (Rejects raw ∧ ∃ what, parse raw = .error (.invalidArgument what)) := by
  by_cases hne : raw = []
  · exact .inr ⟨.inl hne, _, by rw [parse, if_pos hne]⟩
  · rw [rejects_iff]
    by_cases href : RefusedAuthority (authority raw)
    · obtain ⟨what, herror⟩ := parseHostPort_of_refused _ href
      exact .inr ⟨.inr href, what, by rw [parse_eq hne]; exact herror⟩
    · refine .inl ⟨fun h => h.elim hne href, ?_⟩
      rw [parse_eq hne, parseHostPort_of_not_refused _ href]
      rfl

theorem parse_eq_ok_iff {raw : Bytes} {u : URL} :
    parse raw = .ok u ↔ ¬ Rejects raw ∧ u = read raw := by
  rcases parse_cases raw with ⟨hacc, hparse⟩ | ⟨hrej, what, hparse⟩
  · rw [hparse, Except.ok.injEq]
    exact ⟨fun h => ⟨hacc, h.symm⟩, fun h => h.2.symm⟩
  · rw [hparse]
    refine ⟨fun h => ?_, fun h => absurd hrej h.1⟩
    cases h

/-- A string is refused exactly when it is empty, a bracket of its authority is
not closed or its port text is no port.  The exception is then
`std::invalid_argument`, and a port text that is accepted is stored by value. -/
theorem parse_refuses (raw : Bytes) :
    ((∃ e, parse raw = .error e) ↔ Rejects raw) ∧
      (∀ e, parse raw = .error e → ∃ what, e = .invalidArgument what) ∧
      ∀ u, parse raw = .ok u → ∀ portStr, portText (authority raw) = some portStr →
        u.port.toNat = decimal portStr := by
  rcases parse_cases raw with ⟨hacc, hparse⟩ | ⟨hrej, what, hparse⟩
  · rw [hparse]
    refine ⟨⟨?_, fun h => absurd h hacc⟩, ?_, ?_⟩
    · rintro ⟨e, he⟩
      cases he
    · rintro e he
      cases he
    rintro u hu portStr hport
    obtain rfl := Except.ok.inj hu
    have hne : authority raw ≠ [] := fun hnil => by rw [hnil] at hport; cases hport
    have hvalid : ValidPort portStr := by
      by_contra hnot
      exact hacc (rejects_iff.mpr (.inr (.inr ⟨portStr, hport, hnot⟩)))
    show (portPart (schemePart raw) (authority raw)).toNat = decimal portStr
    rw [portPart, if_neg hne, hport]
    exact UInt16.toNat_ofNat_of_lt' (Nat.lt_succ_of_le hvalid.2.2)
  · rw [hparse]
    refine ⟨⟨fun _ => hrej, fun _ => ⟨_, rfl⟩⟩, fun e he => ⟨what, ?_⟩, ?_⟩
    · exact (Except.error.inj he).symm
    · rintro u hu
      cases hu

end URL

end Fion.Http
