import Fion.Http.UrlText

/-!
# Parsing a printed URL

A URL with well-formed components is read back as it was (`parse_toString`).
Scheme, path, query and fragment come from the cuts of `read_of_afterScheme`.
What is left is the authority: a host in brackets ends at its bracket and any
other host at the last colon, so host and port are found again behind each other
(`host_port_of_printed`) and a host that is printed alone is found without a
port (`host_of_bare`).
-/

namespace Fion.Http

open Cpp (Bytes ascii chr isdigit decimal printNat)
open Text (find rfind before after)

namespace URL

/-! ## Printed ports -/

/-- A port that is printed behind the domain name. -/
abbrev PortShown (scheme : Bytes) (port : UInt16) : Prop :=
  port ≠ 0 ∧ ¬ (scheme = ascii "http" ∧ port = 80 ∨ scheme = ascii "https" ∧ port = 443)

theorem validPort_printNat (port : UInt16) : ValidPort (printNat port.toNat) := by
  refine ⟨Cpp.printNat_ne_nil _, List.all_eq_true.mpr Cpp.isdigit_of_mem_printNat, ?_⟩
  rw [Cpp.decimal_printNat]
  exact Nat.le_of_lt_succ port.toNat_lt

/-- A port that is not printed and not zero is the one of the scheme. -/
theorem fallbackPort_of_not_shown {scheme : Bytes} {port : UInt16} (hport : port ≠ 0)
    (h : ¬ PortShown scheme port) : fallbackPort scheme = port := by
  have hdefault := not_not.mp fun hnot => h ⟨hport, hnot⟩
  rcases hdefault with ⟨rfl, rfl⟩ | ⟨rfl, rfl⟩
  · decide
  · decide

/-! ## Hosts -/

/-- A host in brackets. -/
def BracketHost (host : Bytes) : Prop :=
  ∃ inside, host = chr '[' :: inside ++ [chr ']'] ∧ chr ']' ∉ inside

/-- A host that ends at its bracket, if it begins with one. -/
def ClosedHost (host : Bytes) : Prop := host.head? = some (chr '[') → BracketHost host

theorem BracketHost.cut {host : Bytes} (h : BracketHost host) (rest : Bytes) :
    (host ++ rest).head? = some (chr '[') ∧
      before (chr ']') (host ++ rest) ++ [chr ']'] = host ∧
      after (chr ']') (host ++ rest) = rest := by
  obtain ⟨inside, rfl, hinside⟩ := h
  have hopen : chr ']' ∉ chr '[' :: inside := by
    rw [List.mem_cons, not_or]
    exact ⟨by decide, hinside⟩
  have hsplit : chr '[' :: inside ++ [chr ']'] ++ rest =
      (chr '[' :: inside) ++ chr ']' :: rest := by
    simp
  rw [hsplit, Text.before_append_sep hopen, Text.after_append_sep hopen]
  exact ⟨rfl, rfl, rfl⟩

theorem BracketHost.mem {host : Bytes} (h : BracketHost host) (rest : Bytes) :
    chr ']' ∈ host ++ rest := by
  obtain ⟨inside, rfl, -⟩ := h
  simp

/-- A host without brackets in front of more text still has none. -/
theorem head?_append_ne {host : Bytes} (hne : host ≠ [])
    (h : host.head? ≠ some (chr '[')) (rest : Bytes) :
    (host ++ rest).head? ≠ some (chr '[') := by
  cases host with
  | nil => exact absurd rfl hne
  | cons b host => exact h

/-- Host and port are found again behind each other. -/
theorem host_port_of_printed {host portStr : Bytes} (hne : host ≠ []) (hclosed : ClosedHost host)
    (hport : chr ':' ∉ portStr) :
    hostText (host ++ chr ':' :: portStr) = host ∧
      portText (host ++ chr ':' :: portStr) = some portStr := by
  by_cases hhead : host.head? = some (chr '[')
  · obtain ⟨hopen, hhost, hafter⟩ := (hclosed hhead).cut (chr ':' :: portStr)
    rw [hostText, portText, if_pos hopen, if_pos hopen, hhost, hafter]
    exact ⟨rfl, if_pos rfl⟩
  · have hopen := head?_append_ne hne hhead (chr ':' :: portStr)
    have hdrop : (host ++ chr ':' :: portStr).drop (host.length + 1) = portStr := by
      rw [← List.drop_drop, List.drop_left, List.drop_one, List.tail_cons]
    rw [hostText, portText, if_neg hopen, if_neg hopen, Text.rfind_append_sep host hport]
    simp only [List.take_left, Option.map_some, hdrop]
    exact ⟨trivial, trivial⟩

/-- A host that is printed alone, with no colon that could be taken for one in
front of a port, is found without a port. -/
theorem host_of_bare {host : Bytes} (hclosed : ClosedHost host)
    (hbare : host.head? = some (chr '[') ∨ chr ':' ∉ host) :
    hostText host = host ∧ portText host = none := by
  by_cases hhead : host.head? = some (chr '[')
  · obtain ⟨-, hhost, hafter⟩ := (hclosed hhead).cut []
    rw [List.append_nil] at hhost hafter
    rw [hostText, portText, if_pos hhead, if_pos hhead, hhost, hafter]
    exact ⟨rfl, if_neg (by simp)⟩
  · have hnone := Text.rfind_eq_none_iff.mpr (hbare.resolve_left hhead)
    rw [hostText, portText, if_neg hhead, if_neg hhead, hnone]
    exact ⟨rfl, rfl⟩

/-- An authority is accepted when its bracket is closed and its port is one. -/
theorem not_refused_of {hostPort : Bytes}
    (hopen : hostPort.head? = some (chr '[') → chr ']' ∈ hostPort)
    (hport : ∀ portStr, portText hostPort = some portStr → ValidPort portStr) :
    ¬ RefusedAuthority hostPort := by
  rintro (⟨hhead, habs⟩ | ⟨portStr, hsome, hinvalid⟩)
  · exact habs (hopen hhead)
  · exact hinvalid (hport portStr hsome)

theorem ClosedHost.mem {host : Bytes} (hne : host ≠ []) (hclosed : ClosedHost host)
    (rest : Bytes) (hhead : (host ++ rest).head? = some (chr '[')) : chr ']' ∈ host ++ rest := by
  by_cases h : host.head? = some (chr '[')
  · exact (hclosed h).mem rest
  · exact absurd hhead (head?_append_ne hne h rest)

/-- The printed form of an authority. -/
def printAuthority (scheme host : Bytes) (port : UInt16) : Bytes :=
  if host ≠ [] then host ++ if PortShown scheme port then chr ':' :: printNat port.toNat else []
  else []

theorem printedAuthority_eq (u : URL) :
    u.printedAuthority = printAuthority u.scheme u.domainName u.port := rfl

/-- A printed port is read back with its host. -/
theorem reread_shown {scheme host : Bytes} {port : UInt16} (hne : host ≠ [])
    (hclosed : ClosedHost host) (hshown : PortShown scheme port) :
    ¬ RefusedAuthority (printAuthority scheme host port) ∧
      hostText (printAuthority scheme host port) = host ∧
      portPart scheme (printAuthority scheme host port) = port := by
  have hprint : printAuthority scheme host port = host ++ chr ':' :: printNat port.toNat := by
    rw [printAuthority, if_pos hne, if_pos hshown]
  obtain ⟨hhost, hport⟩ := host_port_of_printed hne hclosed
    (Cpp.not_mem_printNat (b := chr ':') (by decide) port.toNat)
  rw [hprint]
  refine ⟨not_refused_of (hclosed.mem hne _) fun portStr hsome => ?_, hhost, ?_⟩
  · obtain rfl := Option.some.inj (hport.symm.trans hsome)
    exact validPort_printNat port
  · rw [portPart, if_neg (by simp), hport]
    simp

/-- A host that is printed alone is read back with the port of the scheme. -/
theorem reread_bare {scheme host : Bytes} {port : UInt16} (hne : host ≠ [])
    (hclosed : ClosedHost host) (hshown : ¬ PortShown scheme port)
    (hbare : host.head? = some (chr '[') ∨ chr ':' ∉ host) :
    ¬ RefusedAuthority (printAuthority scheme host port) ∧
      hostText (printAuthority scheme host port) = host ∧
      portPart scheme (printAuthority scheme host port) = fallbackPort scheme := by
  have hprint : printAuthority scheme host port = host := by
    rw [printAuthority, if_pos hne, if_neg hshown, List.append_nil]
  obtain ⟨hhost, hport⟩ := host_of_bare hclosed hbare
  rw [hprint]
  refine ⟨not_refused_of (fun hhead => ?_) fun portStr hsome => ?_, hhost, ?_⟩
  · have hmem := (hclosed hhead).mem []
    rwa [List.append_nil] at hmem
  · rw [hport] at hsome
    cases hsome
  · rw [portPart, if_neg hne, hport]

/-! ## Well-formed components -/

/-- A host name or an address without brackets. -/
structure PlainHost (host : Bytes) : Prop where
  nonempty : host ≠ []
  delimiters : chr '/' ∉ host ∧ chr '?' ∉ host ∧ chr '#' ∉ host ∧ chr '@' ∉ host ∧ chr ':' ∉ host
  noBracket : host.head? ≠ some (chr '[')

/-- An address in brackets. -/
def LiteralHost (host : Bytes) : Prop :=
  ∃ inside, host = chr '[' :: inside ++ [chr ']'] ∧ chr ']' ∉ inside ∧
    chr '/' ∉ inside ∧ chr '?' ∉ inside ∧ chr '#' ∉ inside ∧ chr '@' ∉ inside

/-- The components that the round trip is about. -/
structure WellFormed (u : URL) : Prop where
  schemeNonempty : u.scheme ≠ []
  schemeLower : toLowerCopy u.scheme = u.scheme
  schemeColon : chr ':' ∉ u.scheme
  host : PlainHost u.domainName ∨ LiteralHost u.domainName
  port : u.port ≠ 0
  pathHead : u.pathToResource.head? = some (chr '/')
  path : chr '?' ∉ u.pathToResource ∧ chr '#' ∉ u.pathToResource
  params : ∀ kv ∈ u.queryParameters.toList, CleanParam kv
  noEmptyParam : u.queryParameters[([] : Bytes)]? ≠ some []

theorem LiteralHost.bracketHost {host : Bytes} (h : LiteralHost host) : BracketHost host := by
  obtain ⟨inside, heq, hclose, -⟩ := h
  exact ⟨inside, heq, hclose⟩

/-- What a well-formed host is free of. -/
theorem WellFormed.hostFree {u : URL} (h : u.WellFormed) :
    u.domainName ≠ [] ∧ chr '/' ∉ u.domainName ∧ chr '?' ∉ u.domainName ∧
      chr '#' ∉ u.domainName ∧ chr '@' ∉ u.domainName := by
  rcases h.host with hplain | ⟨inside, heq, -, hslash, hquestion, hhash, hat⟩
  · obtain ⟨hslash, hquestion, hhash, hat, -⟩ := hplain.delimiters
    exact ⟨hplain.nonempty, hslash, hquestion, hhash, hat⟩
  · have hfree : ∀ b, b ≠ chr '[' → b ≠ chr ']' → b ∉ inside → b ∉ u.domainName := by
      intro b hopen hclose habs
      rw [heq]
      simp [hopen, hclose, habs]
    exact ⟨by simp [heq], hfree _ (by decide) (by decide) hslash,
      hfree _ (by decide) (by decide) hquestion, hfree _ (by decide) (by decide) hhash,
      hfree _ (by decide) (by decide) hat⟩

theorem WellFormed.printable {u : URL} (h : u.WellFormed) : u.Printable where
  domain := ⟨h.hostFree.2.1, h.hostFree.2.2.1, h.hostFree.2.2.2.1⟩
  pathHead := h.pathHead
  path := h.path
  params := h.params

/-- Host and port of a well-formed URL are read back. -/
theorem WellFormed.reread {u : URL} (h : u.WellFormed) :
    ¬ RefusedAuthority u.printedAuthority ∧ hostText u.printedAuthority = u.domainName ∧
      portPart u.scheme u.printedAuthority = u.port := by
  have hclosed : ClosedHost u.domainName := fun hhead =>
    h.host.elim (fun hplain => absurd hhead hplain.noBracket) LiteralHost.bracketHost
  have hne := h.hostFree.1
  rw [printedAuthority_eq]
  by_cases hshown : PortShown u.scheme u.port
  · exact reread_shown hne hclosed hshown
  · have hbare : u.domainName.head? = some (chr '[') ∨ chr ':' ∉ u.domainName := by
      rcases h.host with hplain | hliteral
      · exact .inr hplain.delimiters.2.2.2.2
      · obtain ⟨inside, heq, -⟩ := hliteral
        exact .inl (by rw [heq]; rfl)
    obtain ⟨hacc, hhost, hport⟩ := reread_bare hne hclosed hshown hbare
    exact ⟨hacc, hhost, hport.trans (fallbackPort_of_not_shown h.port hshown)⟩

/-- Parsing the printed form of a URL with well-formed components gives the URL
back. -/
theorem parse_toString {u : URL} (h : u.WellFormed) : parse u.toString = .ok u := by
  have hat : chr '@' ∉ u.printedAuthority :=
    not_mem_printedAuthority h.hostFree.2.2.2.2 (by decide) (by decide)
  have hstrip : withoutUserInfo u.printedAuthority = u.printedAuthority := if_neg hat
  have htext : u.toString = u.scheme ++ (ascii "://" ++ u.printedRest) := by
    rw [toString_eq, if_pos h.schemeNonempty, List.append_assoc]
  obtain ⟨hscheme, hrest⟩ := scheme_of_printed
    (schemeForm_of_not_mem h.schemeLower h.schemeColon) u.printedRest
  rw [← htext] at hscheme hrest
  obtain ⟨hauthority, hread⟩ := read_of_afterScheme h.printable hrest
  obtain ⟨hacc, hhost, hport⟩ := h.reread
  have hkept : keptParams u.queryParameters = u.queryParameters := if_neg h.noEmptyParam
  refine parse_eq_ok_iff.mpr ⟨?_, ?_⟩
  · rw [rejects_iff, hauthority, hstrip]
    rintro (hnil | href)
    · rw [htext] at hnil
      exact h.schemeNonempty (List.append_eq_nil_iff.mp hnil).1
    · exact hacc href
  · rw [hread, hstrip, hscheme, hhost, hport, hkept]

/-- A URL with a default port, a bracket literal, a flag and a fragment that
looks like a URL. -/
def sample : URL where
  scheme := ascii "http"
  domainName := ascii "[::1]"
  port := 80
  pathToResource := ascii "/a@b:c"
  queryParameters := (∅ : StringMap).insertMany [(ascii "debug", []), (ascii "to", ascii "x=y?z")]
  anchor := ascii "http://#1"

theorem sample_wellFormed : sample.WellFormed where
  schemeNonempty := by decide
  schemeLower := by decide
  schemeColon := by decide
  host := .inr ⟨ascii "::1", by decide⟩
  port := by decide
  pathHead := by decide
  path := by decide
  params := fun kv hkv => by
    have hmem : kv ∈ [(ascii "debug", []), (ascii "to", ascii "x=y?z")] :=
      (Headers.getElem?_insertMany_iff (by decide)).mp
        (Std.ExtTreeMap.mem_toList_iff_getElem?_eq_some.mp hkv)
    rcases List.mem_pair.mp hmem with rfl | rfl
    · exact ⟨by decide, by decide⟩
    · exact ⟨by decide, by decide⟩
  noEmptyParam := fun h => by
    have hmem := (Headers.getElem?_insertMany_iff (by decide)).mp h
    revert hmem
    decide

theorem parse_toString_sample : parse sample.toString = .ok sample :=
  parse_toString sample_wellFormed

end URL

end Fion.Http
