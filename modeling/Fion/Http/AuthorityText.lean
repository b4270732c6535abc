import Fion.Http.UrlParts

/-!
# The text of an authority

`parseAuthorityAndPath` cuts the user info off at the first `@`, ends a bracketed
literal at the first `]` and looks for a port behind that bracket, or behind the last
colon of any other host.  Everything of a plain host goes into domain name and port
(`plain_cases`).  Behind a bracket only a colon is looked at, and behind the first
`@` there may be another one.

So the text behind the last `@` is domain name and port exactly when nothing but a
port stands behind a bracket and no second `@` follows the first (`WholeAuthority`).
One more kind of text comes out right, although the parser skips most of it: a literal
that stands behind the first `@` and once more behind the last.
-/

namespace Fion.Http

open Cpp (Bytes Exn ascii chr isdigit decimal)
open Text (rfind before after afterLast)

namespace URL

/-! ## Names and texts -/

/-- Digits that denote a number. -/
def Digits (ds : Bytes) (n : Nat) : Prop := ds ≠ [] ∧ ds.all isdigit = true ∧ decimal ds = n

/-- The text is the domain name, or the domain name with the port behind a colon. -/
def Names (text domainName : Bytes) (port : UInt16) : Prop :=
  text = domainName ∨ ∃ ds, text = domainName ++ chr ':' :: ds ∧ Digits ds port.toNat

/-- The authority of a raw string behind its user info, which ends at the last `@`. -/
def authorityText (raw : Bytes) : Bytes := afterLast (chr '@') (before (chr '/') (remainder raw))

/-- Behind the bracket of a literal there is nothing or a colon. -/
def BracketEnds (hostPort : Bytes) : Prop :=
  hostPort.head? = some (chr '[') →
    after (chr ']') hostPort = [] ∨ (after (chr ']') hostPort).head? = some (chr ':')

/-- A text in brackets without `@`. -/
def Literal (lit : Bytes) : Prop :=
  ∃ inner, lit = chr '[' :: (inner ++ [chr ']']) ∧ chr ']' ∉ inner ∧ chr '@' ∉ inner

/-- A literal, text that begins with no colon, and behind an `@` the literal once more,
at most with the port that a URL of this scheme has when it names none. -/
def RepeatsLiteral (scheme hostPort : Bytes) : Prop :=
  ∃ lit mid port, hostPort = lit ++ (mid ++ chr '@' :: (lit ++ port)) ∧ Literal lit ∧
    mid.head? ≠ some (chr ':') ∧
    (port = [] ∨ ∃ ds, port = chr ':' :: ds ∧ Digits ds (fallbackPort scheme).toNat)

/-- No byte of the authority is skipped, or the skipped ones say nothing new. -/
def WholeAuthority (raw : Bytes) : Prop :=
  chr '@' ∉ authority raw ∧ BracketEnds (authority raw) ∨
    RepeatsLiteral (schemePart raw) (authority raw)

/-! ## Authorities without another `@` -/

/-- The text behind the last `@` is behind the first one, too. -/
theorem authorityText_eq (raw : Bytes) :
    authorityText raw = afterLast (chr '@') (authority raw) := by
  rw [authorityText, authority, withoutUserInfo]
  split_ifs with hmem
  · conv_lhs => rw [← Text.before_append_after hmem]
    exact Text.afterLast_append_cons _ _ _
  · rfl

theorem digit_ne {ds : Bytes} (hds : ds.all isdigit = true) {b : UInt8}
    (hb : isdigit b = false) : b ∉ ds := fun hmem => by
  rw [List.all_eq_true.mp hds b hmem] at hb
  cases hb

/-- A text in brackets is the host, whatever follows it. -/
theorem bracket_read {inner : Bytes} (hinner : chr ']' ∉ inner) (rest : Bytes) :
    hostText (chr '[' :: (inner ++ [chr ']']) ++ rest) = chr '[' :: (inner ++ [chr ']']) ∧
      after (chr ']') (chr '[' :: (inner ++ [chr ']']) ++ rest) = rest := by
  have hopen : chr ']' ∉ chr '[' :: inner := by
    rw [List.mem_cons, not_or]
    exact ⟨by decide, hinner⟩
  have hsplit : chr '[' :: (inner ++ [chr ']']) ++ rest =
      (chr '[' :: inner) ++ chr ']' :: rest := by
    simp
  rw [hsplit, Text.after_append_sep hopen, hostText, List.cons_append, List.head?_cons, if_pos rfl,
    ← List.cons_append, Text.before_append_sep hopen]
  exact ⟨rfl, rfl⟩

/-- An authority that begins with a bracket is a text in brackets and the rest. -/
theorem exists_bracket {hostPort : Bytes} (hopen : hostPort.head? = some (chr '['))
    (hclosed : chr ']' ∈ hostPort) :
    ∃ inner rest, hostPort = chr '[' :: (inner ++ [chr ']']) ++ rest ∧ chr ']' ∉ inner := by
  have hcut := Text.before_append_after hclosed
  have hhead := (Text.head?_before (c := chr ']') (a := chr '[') (by decide) hostPort).mpr hopen
  have hinner := List.eq_cons_of_mem_head? hhead
  refine ⟨(before (chr ']') hostPort).tail, after (chr ']') hostPort, ?_, fun h => ?_⟩
  · conv_lhs => rw [← hcut, hinner]
    simp
  · exact Text.not_mem_before (chr ']') hostPort (List.mem_of_mem_tail h)

/-- The port text of an authority that begins with a bracket. -/
theorem portText_bracket {inner : Bytes} (hinner : chr ']' ∉ inner) (rest : Bytes) :
    portText (chr '[' :: (inner ++ [chr ']']) ++ rest) =
      if rest.head? = some (chr ':') then some rest.tail else none := by
  rw [portText, (bracket_read hinner rest).2, List.cons_append, List.head?_cons, if_pos rfl]

/-- A plain host is cut at its last colon, if it has one. -/
theorem plain_cases {hostPort : Bytes} (hplain : hostPort.head? ≠ some (chr '[')) :
    (portText hostPort = none ∧ hostPort = hostText hostPort) ∨
      ∃ portStr, portText hostPort = some portStr ∧
        hostPort = hostText hostPort ++ chr ':' :: portStr := by
  rw [portText, hostText, if_neg hplain, if_neg hplain]
  by_cases hcolon : chr ':' ∈ hostPort
  · obtain ⟨host, portStr, rfl, hport⟩ := Text.exists_last hcolon
    rw [Text.rfind_append_sep host hport]
    refine .inr ⟨portStr, ?_, ?_⟩
    · rw [Option.map_some, ← List.drop_drop, List.drop_left, List.drop_one, List.tail_cons]
    · simp only [List.take_left]
  · rw [Text.rfind_eq_none_iff.mpr hcolon]
    exact .inl ⟨rfl, rfl⟩

/-- How an accepted authority is read: as a host alone, as a host and a port, or as a
literal with text behind it that is skipped. -/
theorem authority_cases {hostPort : Bytes} (hacc : ¬ RefusedAuthority hostPort) :
    (BracketEnds hostPort ∧ hostPort = hostText hostPort) ∨
      (BracketEnds hostPort ∧ ∃ portStr, portText hostPort = some portStr ∧ ValidPort portStr ∧
        hostPort = hostText hostPort ++ chr ':' :: portStr) ∨
      ∃ inner rest, hostPort = chr '[' :: (inner ++ [chr ']']) ++ rest ∧ chr ']' ∉ inner ∧
        rest ≠ [] ∧ rest.head? ≠ some (chr ':') := by
  rw [RefusedAuthority, not_or, not_and, not_not] at hacc
  obtain ⟨hclosed, hport⟩ := hacc
  have hvalid : ∀ portStr, portText hostPort = some portStr → ValidPort portStr := by
    intro portStr hsome
    by_contra hnot
    exact hport ⟨portStr, hsome, hnot⟩
  by_cases hopen : hostPort.head? = some (chr '[')
  · obtain ⟨inner, rest, rfl, hinner⟩ := exists_bracket hopen (hclosed hopen)
    obtain ⟨hhost, hafter⟩ := bracket_read hinner rest
    have hports := portText_bracket hinner rest
    rw [BracketEnds, hafter, hhost]
    cases rest with
    | nil => exact .inl ⟨fun _ => .inl rfl, by rw [List.append_nil]⟩
    | cons b rest =>
        by_cases hcolon : b = chr ':'
        · subst hcolon
          rw [List.head?_cons, if_pos rfl, List.tail_cons] at hports
          exact .inr (.inl ⟨fun _ => .inr rfl, rest, hports, hvalid _ hports, rfl⟩)
        · refine .inr (.inr ⟨inner, b :: rest, rfl, hinner, List.cons_ne_nil b rest, fun h => ?_⟩)
          exact hcolon (Option.some.inj h)
  · have hends : BracketEnds hostPort := fun h => absurd h hopen
    rcases plain_cases hopen with ⟨-, hhost⟩ | ⟨portStr, hsome, hhost⟩
    · exact .inl ⟨hends, hhost⟩
    · exact .inr (.inl ⟨hends, portStr, hsome, hvalid portStr hsome, hhost⟩)

/-- An accepted port text denotes the port that is stored. -/
theorem digits_of_validPort {scheme hostPort portStr : Bytes} (hvalid : ValidPort portStr)
    (hport : portText hostPort = some portStr) :
    Digits portStr (portPart scheme hostPort).toNat := by
  have hne : hostPort ≠ [] := fun hnil => by rw [hnil] at hport; cases hport
  refine ⟨hvalid.1, hvalid.2.1, ?_⟩
  rw [portPart, if_neg hne, hport]
  exact (UInt16.toNat_ofNat_of_lt' (Nat.lt_succ_of_le hvalid.2.2)).symm

/-- Without a second `@`, the text of an accepted authority is its host and its port
when nothing but a port stands behind a bracket. -/
theorem names_iff_bracketEnds {scheme hostPort : Bytes} (hacc : ¬ RefusedAuthority hostPort) :
    Names hostPort (hostText hostPort) (portPart scheme hostPort) ↔ BracketEnds hostPort := by
  rcases authority_cases hacc with ⟨hends, hhost⟩ | ⟨hends, portStr, hport, hvalid, hhost⟩ |
    ⟨inner, rest, rfl, hinner, hne, hcolon⟩
  · exact iff_of_true (.inl hhost) hends
  · exact iff_of_true (.inr ⟨portStr, hhost, digits_of_validPort hvalid hport⟩) hends
  · obtain ⟨hhost, hafter⟩ := bracket_read hinner rest
    refine iff_of_false ?_ fun hends => ?_
    · rw [hhost]
      rintro (heq | ⟨ds, heq, -⟩)
      · exact hne (List.append_right_eq_self.mp heq)
      · rw [List.append_cancel_left heq] at hcolon
        exact hcolon rfl
    · have hrest := hends rfl
      rw [hafter] at hrest
      exact hrest.elim hne hcolon

/-! ## Authorities with another `@` -/

theorem Digits.at_not_mem {ds : Bytes} {n : Nat} (h : Digits ds n) : chr '@' ∉ ds :=
  digit_ne h.2.1 (by decide)

/-- A text behind an `@` that names host and port repeats a literal. -/
theorem repeatsLiteral_of_names {scheme hostPort : Bytes} (hacc : ¬ RefusedAuthority hostPort)
    (hmem : chr '@' ∈ hostPort)
    (hnames : Names (afterLast (chr '@') hostPort) (hostText hostPort)
      (portPart scheme hostPort)) : RepeatsLiteral scheme hostPort := by
  -- the domain name is a part of a text without `@`
  have hdomain : chr '@' ∉ hostText hostPort := by
    have htext := Text.not_mem_afterLast (chr '@') hostPort
    rcases hnames with heq | ⟨ds, heq, -⟩
    · rwa [heq] at htext
    · rw [heq, List.mem_append, not_or] at htext
      exact htext.1
  rcases authority_cases hacc with ⟨-, hhost⟩ | ⟨-, portStr, hport, hvalid, hhost⟩ |
    ⟨inner, rest, rfl, hinner, hne, hcolon⟩
  · exact absurd (hhost ▸ hmem) hdomain
  · rw [hhost, List.mem_append, List.mem_cons] at hmem
    rcases hmem with hleft | heq | hright
    · exact absurd hleft hdomain
    · exact absurd heq (by decide)
    · exact absurd hright (digit_ne hvalid.2.1 (by decide))
  · rw [(bracket_read hinner rest).1] at hnames hdomain
    have hport : portPart scheme (chr '[' :: (inner ++ [chr ']']) ++ rest) =
        fallbackPort scheme := by
      rw [portPart, if_neg (by simp), portText_bracket hinner, if_neg hcolon]
    rw [hport] at hnames
    have hrest : chr '@' ∈ rest := (List.mem_append.mp hmem).resolve_left hdomain
    obtain ⟨mid, text, rfl, htext⟩ := Text.exists_last hrest
    rw [← List.append_assoc, Text.afterLast_append_sep _ htext] at hnames
    have hlit : Literal (chr '[' :: (inner ++ [chr ']'])) := by
      refine ⟨inner, rfl, hinner, fun h => hdomain ?_⟩
      exact List.mem_cons_of_mem _ (List.mem_append_left _ h)
    have hmid : mid.head? ≠ some (chr ':') := fun h => hcolon (by
      rw [List.head?_append, h, Option.some_or])
    rcases hnames with heq | ⟨ds, heq, hds⟩
    · exact ⟨_, mid, [], by rw [heq, List.append_nil], hlit, hmid, .inl rfl⟩
    · exact ⟨_, mid, chr ':' :: ds, by rw [heq], hlit, hmid, .inr ⟨ds, rfl, hds⟩⟩

/-- What is read from a literal that is repeated, and the text behind the last `@`. -/
theorem read_of_repeatsLiteral {scheme hostPort : Bytes} (h : RepeatsLiteral scheme hostPort) :
    Names (afterLast (chr '@') hostPort) (hostText hostPort) (portPart scheme hostPort) ∧
      hostText (afterLast (chr '@') hostPort) = hostText hostPort := by
  obtain ⟨lit, mid, port, rfl, ⟨inner, rfl, hinner, hat⟩, hmid, hport⟩ := h
  have hlit : chr '@' ∉ chr '[' :: (inner ++ [chr ']']) := by
    simp only [List.mem_cons, List.mem_append, List.not_mem_nil, or_false, not_or]
    exact ⟨by decide, hat, by decide⟩
  have htext : chr '@' ∉ chr '[' :: (inner ++ [chr ']']) ++ port := by
    rw [List.mem_append, not_or]
    refine ⟨hlit, ?_⟩
    rcases hport with rfl | ⟨ds, rfl, hds⟩
    · exact List.not_mem_nil
    · rw [List.mem_cons, not_or]
      exact ⟨by decide, hds.at_not_mem⟩
  have hskip : (mid ++ chr '@' :: (chr '[' :: (inner ++ [chr ']']) ++ port)).head? ≠
      some (chr ':') := by
    rw [List.head?_append]
    cases hm : mid.head? with
    | none => exact fun h => absurd (Option.some.inj h) (by decide)
    | some b => rw [hm] at hmid; exact hmid
  rw [← List.append_assoc, Text.afterLast_append_sep _ htext, List.append_assoc,
    (bracket_read hinner _).1, (bracket_read hinner _).1, portPart, if_neg (by simp),
    portText_bracket hinner, if_neg hskip]
  refine ⟨?_, rfl⟩
  rcases hport with rfl | ⟨ds, rfl, hds⟩
  · exact .inl (List.append_nil _)
  · exact .inr ⟨ds, rfl, hds⟩

/-! ## Accepted URLs -/

/-- The text of an accepted authority is its domain name and its port exactly when
nothing new is skipped. -/
theorem names_iff_whole {raw : Bytes} (hacc : ¬ RefusedAuthority (authority raw)) :
    Names (authorityText raw) (hostText (authority raw))
        (portPart (schemePart raw) (authority raw)) ↔ WholeAuthority raw := by
  rw [authorityText_eq]
  constructor
  · intro hnames
    by_cases hmem : chr '@' ∈ authority raw
    · exact .inr (repeatsLiteral_of_names hacc hmem hnames)
    · rw [Text.afterLast_of_not_mem hmem] at hnames
      exact .inl ⟨hmem, (names_iff_bracketEnds hacc).mp hnames⟩
  · rintro (⟨hmem, hends⟩ | hrepeats)
    · rw [Text.afterLast_of_not_mem hmem]
      exact (names_iff_bracketEnds hacc).mpr hends
    · exact (read_of_repeatsLiteral hrepeats).1

/-- Then the domain name is the host of that text, too. -/
theorem hostText_of_whole {raw : Bytes} (h : WholeAuthority raw) :
    hostText (authorityText raw) = hostText (authority raw) := by
  rw [authorityText_eq]
  rcases h with ⟨hmem, -⟩ | hrepeats
  · rw [Text.afterLast_of_not_mem hmem]
  · exact (read_of_repeatsLiteral hrepeats).2

/-- The authority of an accepted URL behind the last `@` is the domain name, or the
domain name and digits that denote the port, exactly when no byte of it is skipped.
Among such URLs the same domain name comes from the same host text. -/
theorem authority_names_iff {raw : Bytes} {u : URL} (h : parse raw = .ok u) :
    (Names (authorityText raw) u.domainName u.port ↔ WholeAuthority raw) ∧
    (∀ (raw' : Bytes) (u' : URL), parse raw' = .ok u' →
      WholeAuthority raw → WholeAuthority raw' → u.domainName = u'.domainName →
      hostText (authorityText raw) = hostText (authorityText raw')) := by
  obtain ⟨hacc, rfl⟩ := parse_eq_ok_iff.mp h
  constructor
  · exact names_iff_whole fun href => hacc (rejects_iff.mpr (.inr href))
  · intro raw' u' h' hwhole hwhole' hdomain
    obtain ⟨-, rfl⟩ := parse_eq_ok_iff.mp h'
    rw [hostText_of_whole hwhole, hostText_of_whole hwhole']
    exact hdomain

/-- A literal with user info in front of it and a port behind it is read as a whole. -/
theorem authority_names_literal :
    Names (authorityText (ascii "http://u@[::1]:8080/"))
      (read (ascii "http://u@[::1]:8080/")).domainName
      (read (ascii "http://u@[::1]:8080/")).port := by
  have hparse : parse (ascii "http://u@[::1]:8080/") =
      .ok (read (ascii "http://u@[::1]:8080/")) := rfl
  refine (authority_names_iff hparse).1.mpr (.inl ⟨by decide, fun _ => .inr ?_⟩)
  decide

/-- Text behind a literal that is no port is dropped. -/
theorem authority_skips_text :
    ¬ ∀ (raw : Bytes) (u : URL), parse raw = .ok u →
      Names (authorityText raw) u.domainName u.port := by
  intro h
  have htext : authorityText (ascii "http://[::1].test/") = ascii "[::1].test" := by decide
  have hdomain : (read (ascii "http://[::1].test/")).domainName = ascii "[::1]" := by decide
  have hnames := h (ascii "http://[::1].test/") (read (ascii "http://[::1].test/")) rfl
  rw [htext, hdomain] at hnames
  rcases hnames with heq | ⟨ds, heq, -⟩
  · exact absurd heq (by decide)
  · have hbyte : some (chr '.') = some (chr ':') := congrArg (·[5]?) heq
    exact absurd hbyte (by decide)

end URL

end Fion.Http
