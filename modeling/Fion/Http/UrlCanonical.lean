import Fion.Http.UrlRoundTrip

/-!
# Printing a parsed URL twice

A raw string that is accepted need not have its printed form as its canonical
form: the printed form may be refused, or be printed differently when it is read
again.  The parser takes an authority at the first `@` and the last colon, and a
port that is not printed has to come back from the scheme.

`HostKept` says which hosts and ports survive (`authority_kept_iff`), and
`FormKept` adds the query, where only an empty key with an empty value is lost
(`printedQuery_kept_iff`).  A URL without a scheme prints none, so it survives
exactly when it has no host, as long as its text is not taken for one with a
scheme.
-/

namespace Fion.Http

open Cpp (Bytes ascii chr isdigit decimal printNat)
open Text (find rfind lines before after)

namespace URL

/-- A text that is accepted and printed as it stands. -/
def CanonicalText (s : Bytes) : Prop := ∃ u, parse s = .ok u ∧ u.toString = s

/-- Host and port that are printed the same when they are read again: no `@` is
left in the host, and the port is printed, or it comes back from the scheme, or
the host itself ends like a printed port. -/
def HostKept (scheme host : Bytes) (port : UInt16) : Prop :=
  chr '@' ∉ host ∧
    (PortShown scheme port ∨
      ((host.head? = some (chr '[') ∨ chr ':' ∉ host) ∧
        (scheme = ascii "http" ∨ scheme = ascii "https")) ∨
      (host.head? ≠ some (chr '[') ∧ ∃ name shown, name ≠ [] ∧ PortShown scheme shown ∧
        host = name ++ chr ':' :: printNat shown.toNat))

/-- The condition on a raw string: its last parameter with an empty key has a
value, and its host, if it has one, stands behind a scheme and is kept. -/
def FormKept (raw : Bytes) : Prop :=
  ((lines (chr '&') (queryText raw)).filter (·.head? = some (chr '='))).getLast? ≠
      some (ascii "=") ∧
    (hostText (authority raw) = [] ∨
      schemePart raw ≠ [] ∧ HostKept (schemePart raw) (hostText (authority raw))
        (portPart (schemePart raw) (authority raw)))

/-! ## The authority -/

theorem count_after {b : UInt8} {s : Bytes} (h : b ∈ s) : (after b s).count b < s.count b := by
  conv_rhs => rw [← Text.before_append_after h]
  rw [List.count_append, List.count_cons_self]
  omega

/-- Printing host and port of an authority adds no `@` to it. -/
theorem count_at_reread (scheme hostPort : Bytes) (port : UInt16) :
    (printAuthority scheme (hostText hostPort) port).count (chr '@') ≤
      hostPort.count (chr '@') := by
  have hhost : (hostText hostPort).count (chr '@') ≤ hostPort.count (chr '@') := by
    rw [hostText]
    split_ifs
    · have hclose : [chr ']'].count (chr '@') = 0 := by decide
      rw [List.count_append, hclose, Nat.add_zero]
      exact (Text.before_isPrefix _ _).sublist.count_le _
    · split
      · exact (List.take_sublist _ _).count_le _
      · exact le_refl _
  have hport : (if PortShown scheme port then chr ':' :: printNat port.toNat else []).count
      (chr '@') = 0 := by
    rw [List.count_eq_zero]
    split_ifs
    · rw [List.mem_cons, not_or]
      exact ⟨by decide, Cpp.not_mem_printNat (by decide) _⟩
    · exact List.not_mem_nil
  by_cases hne : hostText hostPort = []
  · rw [printAuthority, if_neg (not_not_intro hne)]
    simp
  · rw [printAuthority, if_pos hne, List.count_append, hport]
    exact hhost

/-- The port of the scheme is printed for every scheme but two. -/
theorem portShown_fallbackPort {scheme : Bytes} :
    PortShown scheme (fallbackPort scheme) ↔
      ¬ (scheme = ascii "http" ∨ scheme = ascii "https") := by
  by_cases hhttp : scheme = ascii "http"
  · subst hhttp
    decide
  · by_cases hhttps : scheme = ascii "https"
    · subst hhttps
      decide
    · have hfallback : fallbackPort scheme = 80 := by
        rw [fallbackPort, defaultPortForScheme, if_neg hhttp, if_neg hhttps]
        decide
      rw [PortShown, hfallback]
      simp only [hhttp, hhttps, false_and, or_self, not_false_eq_true, and_true]
      decide

/-- A host that is printed alone, without brackets but with a colon, is split at
its last colon. -/
theorem kept_of_colon {scheme host : Bytes} (hne : host ≠ [])
    (hhead : host.head? ≠ some (chr '['))
    (hcolon : chr ':' ∈ host) :
    (¬ RefusedAuthority host ∧
        printAuthority scheme (hostText host) (portPart scheme host) = host) ↔
      ∃ name shown, name ≠ [] ∧ PortShown scheme shown ∧
        host = name ++ chr ':' :: printNat shown.toNat := by
  constructor
  · rintro ⟨hacc, hprint⟩
    obtain ⟨name, portStr, hsplit, hlast⟩ := Text.exists_last hcolon
    have hdrop : host.drop (name.length + 1) = portStr := by
      rw [hsplit, ← List.drop_drop, List.drop_left, List.drop_one, List.tail_cons]
    have hfind : rfind (chr ':') host = some name.length := by
      rw [hsplit, Text.rfind_append_sep name hlast]
    have hhost : hostText host = name := by
      rw [hostText, if_neg hhead, hfind]
      simp only
      rw [hsplit, List.take_left]
    rw [hhost, printAuthority] at hprint
    split_ifs at hprint with hname hport
    · refine ⟨name, portPart scheme host, hname, hport, ?_⟩
      exact hprint.symm
    · rw [hsplit, List.append_nil] at hprint
      have hlen := congrArg List.length hprint
      rw [List.length_append, List.length_cons] at hlen
      omega
    · exact absurd hprint.symm hne
  · rintro ⟨name, shown, hname, hport, rfl⟩
    have hclosed : ClosedHost name := fun hopen => by
      cases name with
      | nil => exact absurd rfl hname
      | cons b name => exact absurd hopen hhead
    have hprint : printAuthority scheme name shown = name ++ chr ':' :: printNat shown.toNat := by
      rw [printAuthority, if_pos hname, if_pos hport]
    obtain ⟨hacc, hhost, hread⟩ := reread_shown hname hclosed hport
    rw [hprint] at hacc hhost hread
    rw [hhost, hread]
    exact ⟨hacc, hprint⟩

/-- A host that is printed alone and read as it stands gets its port from the scheme,
which is the same when it is not printed then. -/
theorem kept_of_bare {scheme host : Bytes} {port : UInt16} (hne : host ≠ [])
    (hclosed : ClosedHost host) (hshown : ¬ PortShown scheme port)
    (hbare : host.head? = some (chr '[') ∨ chr ':' ∉ host) :
    (¬ RefusedAuthority (printAuthority scheme host port) ∧
        printAuthority scheme (hostText (printAuthority scheme host port))
          (portPart scheme (printAuthority scheme host port)) = printAuthority scheme host port) ↔
      scheme = ascii "http" ∨ scheme = ascii "https" := by
  obtain ⟨hacc, hhost, hport⟩ := reread_bare hne hclosed hshown hbare
  have hsame : printAuthority scheme host (fallbackPort scheme) =
      printAuthority scheme host port ↔ ¬ PortShown scheme (fallbackPort scheme) := by
    rw [printAuthority, printAuthority, if_pos hne, if_pos hne, if_neg hshown]
    split_ifs with hfallback
    · simp [hfallback]
    · simp [hfallback]
  rw [hhost, hport, hsame, portShown_fallbackPort, not_not]
  exact and_iff_right hacc

/-- A printed authority is accepted and printed the same exactly for the hosts
and ports that are kept. -/
theorem authority_kept_iff {scheme host : Bytes} {port : UInt16} (hne : host ≠ [])
    (hclosed : ClosedHost host) :
    (¬ RefusedAuthority (withoutUserInfo (printAuthority scheme host port)) ∧
        printAuthority scheme (hostText (withoutUserInfo (printAuthority scheme host port)))
          (portPart scheme (withoutUserInfo (printAuthority scheme host port))) =
          printAuthority scheme host port) ↔ HostKept scheme host port := by
  by_cases hat : chr '@' ∈ host
  · -- the text loses what stands before its first `@`, and with it one `@`
    have hmem : chr '@' ∈ printAuthority scheme host port := by
      rw [printAuthority, if_pos hne]
      exact List.mem_append_left _ hat
    refine iff_of_false (fun h => ?_) fun h => h.1 hat
    have hless := count_after hmem
    have hle := count_at_reread scheme (withoutUserInfo (printAuthority scheme host port))
      (portPart scheme (withoutUserInfo (printAuthority scheme host port)))
    rw [h.2, withoutUserInfo, if_pos hmem] at hle
    omega
  · have hfree : chr '@' ∉ printAuthority scheme host port :=
      not_mem_printedAuthority
        (u := { scheme := scheme, domainName := host, port := port }) hat (by decide) (by decide)
    rw [withoutUserInfo, if_neg hfree, HostKept]
    by_cases hshown : PortShown scheme port
    · obtain ⟨hacc, hhost, hport⟩ := reread_shown hne hclosed hshown
      rw [hhost, hport]
      exact iff_of_true ⟨hacc, rfl⟩ ⟨hat, .inl hshown⟩
    · by_cases hbare : host.head? = some (chr '[') ∨ chr ':' ∉ host
      · have hthird : ¬ (host.head? ≠ some (chr '[') ∧ ∃ name shown, name ≠ [] ∧
            PortShown scheme shown ∧ host = name ++ chr ':' :: printNat shown.toNat) := by
          rintro ⟨hhead, name, shown, -, -, hsplit⟩
          refine hbare.elim hhead fun habs => habs ?_
          rw [hsplit]
          simp
        rw [kept_of_bare hne hclosed hshown hbare]
        constructor
        · exact fun h => ⟨hat, .inr (.inl ⟨hbare, h⟩)⟩
        · exact fun h => ((h.2.resolve_left hshown).resolve_right hthird).2
      · rw [not_or, not_not] at hbare
        have hprint : printAuthority scheme host port = host := by
          rw [printAuthority, if_pos hne, if_neg hshown, List.append_nil]
        rw [hprint, kept_of_colon hne hbare.1 hbare.2]
        constructor
        · exact fun h => ⟨hat, .inr (.inr ⟨hbare.1, h⟩)⟩
        · rintro ⟨-, hport | ⟨hhead | hcolon, -⟩ | ⟨-, h⟩⟩
          · exact absurd hport hshown
          · exact absurd hhead hbare.1
          · exact absurd hbare.2 hcolon
          · exact h

/-- Without a host nothing of the authority is printed. -/
theorem authority_kept_or_nil_iff {scheme host : Bytes} {port : UInt16}
    (hclosed : ClosedHost host) :
    (¬ RefusedAuthority (withoutUserInfo (printAuthority scheme host port)) ∧
        printAuthority scheme (hostText (withoutUserInfo (printAuthority scheme host port)))
          (portPart scheme (withoutUserInfo (printAuthority scheme host port))) =
          printAuthority scheme host port) ↔ host = [] ∨ HostKept scheme host port := by
  by_cases hhost : host = []
  · have hnil : printAuthority scheme host port = [] := if_neg (not_not_intro hhost)
    rw [hnil]
    exact iff_of_true ⟨not_refused_nil, rfl⟩ (.inl hhost)
  · exact (authority_kept_iff hhost hclosed).trans (or_iff_right hhost).symm

/-! ## The query -/

theorem count_amp_printParams {kvs : List (Bytes × Bytes)} (h : ∀ kv ∈ kvs, CleanParam kv)
    (hne : kvs ≠ []) : (printParams true kvs).count (chr '&') + 1 = kvs.length := by
  induction kvs with
  | nil => exact absurd rfl hne
  | cons kv rest ih =>
      have hkv : (printParam kv).count (chr '&') = 0 :=
        List.count_eq_zero.mpr (amp_not_mem_printParam (h kv List.mem_cons_self))
      rw [printParams_cons, List.count_append, hkv, List.length_cons]
      by_cases hrest : rest = []
      · simp [hrest]
      · rw [if_neg hrest, List.count_cons_self, Nat.zero_add,
          ih (fun kv hkv => h kv (List.mem_cons_of_mem _ hkv)) hrest]

theorem cleanParam_keptParams {params : StringMap} (h : ∀ kv ∈ params.toList, CleanParam kv) :
    ∀ kv ∈ (keptParams params).toList, CleanParam kv := by
  rintro ⟨key, value⟩ hkv
  refine h (key, value) (Std.ExtTreeMap.mem_toList_iff_getElem?_eq_some.mpr ?_)
  have hget := Std.ExtTreeMap.mem_toList_iff_getElem?_eq_some.mp hkv
  rw [keptParams] at hget
  split_ifs at hget
  · rw [Std.ExtTreeMap.getElem?_erase] at hget
    split_ifs at hget
    exact hget
  · exact hget

/-- The query is printed the same when no parameter is lost: every lost one takes
an `&` or the `?` with it. -/
theorem printedQuery_kept_iff {params : StringMap} (h : ∀ kv ∈ params.toList, CleanParam kv) :
    printedQuery (keptParams params) = printedQuery params ↔
      params[([] : Bytes)]? ≠ some [] := by
  refine ⟨fun hsame hlost => ?_, fun hkept => by rw [keptParams, if_neg hkept]⟩
  have hmem : ([] : Bytes) ∈ params := by
    rw [Std.ExtTreeMap.mem_iff_isSome_getElem?, hlost]
    rfl
  have hparams : params ≠ ∅ := by
    rintro rfl
    simp at hmem
  have hsize : (keptParams params).toList.length + 1 = params.toList.length := by
    have hne : params.size ≠ 0 := fun h0 =>
      hparams (Std.ExtTreeMap.eq_empty_iff_size_eq_zero.mpr h0)
    rw [keptParams, if_pos hlost, Std.ExtTreeMap.length_toList, Std.ExtTreeMap.length_toList,
      Std.ExtTreeMap.size_erase, if_pos (Std.ExtTreeMap.contains_iff_mem.mpr hmem)]
    omega
  have hshown : ¬ params.isEmpty := mt Std.ExtTreeMap.isEmpty_iff.mp hparams
  by_cases hempty : (keptParams params).isEmpty
  · rw [printedQuery, printedQuery, if_neg (not_not_intro hempty), if_pos hshown] at hsame
    cases hsame
  · rw [printedQuery, printedQuery, if_pos hempty, if_pos hshown] at hsame
    have hcount := congrArg (List.count (chr '&')) (List.append_cancel_left hsame)
    have hleft : keptParams params ≠ ∅ := mt Std.ExtTreeMap.isEmpty_iff.mpr hempty
    have hkept := count_amp_printParams (cleanParam_keptParams h)
      (mt Std.ExtTreeMap.toList_eq_nil_iff.mp hleft)
    have hall := count_amp_printParams h (mt Std.ExtTreeMap.toList_eq_nil_iff.mp hparams)
    omega

/-! ## The whole text -/

theorem canonicalText_iff {s : Bytes} :
    CanonicalText s ↔ ¬ Rejects s ∧ (read s).toString = s := by
  constructor
  · rintro ⟨u, hparse, hprint⟩
    obtain ⟨hacc, rfl⟩ := parse_eq_ok_iff.mp hparse
    exact ⟨hacc, hprint⟩
  · exact fun h => ⟨read s, parse_eq_ok_iff.mpr ⟨h.1, rfl⟩, h.2⟩

/-- A printed text whose scheme is found again is canonical when its authority and
its query are kept. -/
theorem canonicalText_iff_parts {u : URL} (h : u.Printable) (hne : u.toString ≠ [])
    (hscheme : schemePart u.toString = u.scheme)
    (hrest : afterScheme u.toString = u.printedRest) :
    CanonicalText u.toString ↔
      (¬ RefusedAuthority (withoutUserInfo u.printedAuthority) ∧
        printAuthority u.scheme (hostText (withoutUserInfo u.printedAuthority))
          (portPart u.scheme (withoutUserInfo u.printedAuthority)) = u.printedAuthority) ∧
      u.queryParameters[([] : Bytes)]? ≠ some [] := by
  obtain ⟨hauthority, hread⟩ := read_of_afterScheme h hrest
  rw [hscheme] at hread
  have hreject : Rejects u.toString ↔
      RefusedAuthority (withoutUserInfo u.printedAuthority) := by
    rw [rejects_iff, hauthority]
    exact or_iff_right hne
  have hprint : (read u.toString).toString = u.toString ↔
      (read u.toString).printedRest = u.printedRest := by
    have hleft := toString_eq (read u.toString)
    rw [show (read u.toString).scheme = u.scheme from hscheme] at hleft
    constructor
    · exact fun heq => List.append_cancel_left (hleft.symm.trans (heq.trans (toString_eq u)))
    · intro heq
      rw [hleft, heq, ← toString_eq]
  have hanchor : (read u.toString).anchor = u.anchor := by rw [hread]
  have hpath : (read u.toString).pathToResource = u.pathToResource := by rw [hread]
  have hparts : (read u.toString).printedRest = u.printedRest ↔
      (read u.toString).printedAuthority = u.printedAuthority ∧
        printedQuery (read u.toString).queryParameters = printedQuery u.queryParameters := by
    constructor
    · intro hsame
      have hcut := (cuts_of_printedRest (printable_read u.toString)).2.2
      rw [hsame, (cuts_of_printedRest h).2.2, hpath] at hcut
      have hauth := List.append_cancel_right hcut
      refine ⟨hauth.symm, ?_⟩
      rw [printedRest, printedRest, ← hauth, hpath, hanchor] at hsame
      exact List.append_cancel_left (List.append_cancel_right hsame)
    · rintro ⟨hauth, hquery⟩
      rw [printedRest, printedRest, hauth, hquery, hpath, hanchor]
  rw [canonicalText_iff, hreject, hprint, hparts, hread]
  show ¬ _ ∧ _ ∧ printedQuery (keptParams u.queryParameters) = _ ↔ _
  rw [printedQuery_kept_iff h.params, and_assoc]
  rfl

/-! ## Schemes -/

theorem tolower_eq_iff {b c : UInt8} (hc : c = chr ':' ∨ c = chr '/') :
    Cpp.tolower b = c ↔ b = c := by
  have hnat : c.toNat = 58 ∨ c.toNat = 47 := by
    rcases hc with rfl | rfl
    · exact .inl rfl
    · exact .inr rfl
  rw [Cpp.tolower]
  split_ifs with hupper
  · simp only [UInt8.le_iff_toNat_le] at hupper
    have h65 : (65 : UInt8).toNat = 65 := rfl
    have h90 : (90 : UInt8).toNat = 90 := rfl
    have h32 : (32 : UInt8).toNat = 32 := rfl
    constructor
    · rintro rfl
      rw [UInt8.toNat_add] at hnat
      omega
    · rintro rfl
      omega
  · exact Iff.rfl

theorem toLowerCopy_idem (s : Bytes) : toLowerCopy (toLowerCopy s) = toLowerCopy s := by
  rw [toLowerCopy, toLowerCopy, List.map_map]
  refine List.map_congr_left fun b _ => ?_
  show Cpp.tolower (Cpp.tolower b) = Cpp.tolower b
  rw [Cpp.tolower, Cpp.tolower]
  simp only [UInt8.le_iff_toNat_le]
  split_ifs with h h'
  · have h65 : (65 : UInt8).toNat = 65 := rfl
    have h90 : (90 : UInt8).toNat = 90 := rfl
    have h32 : (32 : UInt8).toNat = 32 := rfl
    rw [UInt8.toNat_add] at h'
    omega
  · rfl
  · rfl

/-- `"://"` stands in a text in lower case only where it stood before. -/
theorem prefix_toLowerCopy {s : Bytes} (h : ascii "://" <+: toLowerCopy s) : ascii "://" <+: s := by
  obtain ⟨rest, hrest⟩ := h
  obtain ⟨a, t, rfl, ha, ht⟩ := List.map_eq_append_iff.mp hrest.symm
  obtain ⟨x, a, rfl, hx, ha⟩ := List.map_eq_cons_iff.mp ha
  obtain ⟨y, a, rfl, hy, ha⟩ := List.map_eq_cons_iff.mp ha
  obtain ⟨z, a, rfl, hz, ha⟩ := List.map_eq_cons_iff.mp ha
  obtain rfl := List.map_eq_nil_iff.mp ha
  obtain rfl := (tolower_eq_iff (.inl rfl)).mp hx
  obtain rfl := (tolower_eq_iff (.inr rfl)).mp hy
  obtain rfl := (tolower_eq_iff (.inr rfl)).mp hz
  exact ⟨t, rfl⟩

/-- A scheme that was cut at the first `"://"` is cut there again. -/
theorem schemeForm_of_find {raw : Bytes} {schemeEnd : Nat}
    (hfind : find (ascii "://") raw = some schemeEnd) :
    SchemeForm (toLowerCopy (raw.take schemeEnd)) where
  lower := toLowerCopy_idem _
  first rest := by
    have hle : schemeEnd + 3 ≤ raw.length := Text.find_le (by decide) hfind
    have hlen : (toLowerCopy (raw.take schemeEnd)).length = schemeEnd := by
      rw [toLowerCopy, List.length_map, List.length_take]
      omega
    have htake : raw.take (schemeEnd + 3) = raw.take schemeEnd ++ ascii "://" := by
      have hsplit := Text.eq_append_of_find hfind
      have hlen' : schemeEnd + 3 = (raw.take schemeEnd ++ ascii "://").length := by
        rw [List.length_append, List.length_take, Nat.min_eq_left (by omega)]
        rfl
      conv_lhs => rw [hsplit, hlen', List.take_left]
    have hlower : toLowerCopy (raw.take (schemeEnd + 3)) =
        toLowerCopy (raw.take schemeEnd) ++ ascii "://" := by
      rw [htake, toLowerCopy, List.map_append]
      rfl
    refine Text.find_append_self_of_skip _ rest fun j hj hocc => ?_
    rw [hlen] at hj
    rw [← List.append_assoc, ← hlower] at hocc
    have hfit : j + (ascii "://").length ≤ (toLowerCopy (raw.take (schemeEnd + 3))).length := by
      rw [hlower, List.length_append, hlen]
      omega
    have hinside := (Text.prefix_drop_append_iff hfit).mp hocc
    rw [toLowerCopy, ← List.map_drop] at hinside
    have hraw := prefix_toLowerCopy hinside
    refine (Text.find_eq_some_iff.mp hfind).2 j hj ?_
    rw [← List.take_append_drop (schemeEnd + 3) raw]
    refine (Text.prefix_drop_append_iff ?_).mpr hraw
    rw [List.length_take, Nat.min_eq_left hle]
    show j + 3 ≤ schemeEnd + 3
    omega

/-- A printed text with a scheme has it in front. -/
theorem scheme_of_toString {u : URL} (hne : u.scheme ≠ []) (hform : SchemeForm u.scheme) :
    u.toString ≠ [] ∧ schemePart u.toString = u.scheme ∧
      afterScheme u.toString = u.printedRest := by
  have htext : u.toString = u.scheme ++ (ascii "://" ++ u.printedRest) := by
    rw [toString_eq, if_pos hne, List.append_assoc]
  rw [htext]
  refine ⟨fun hnil => ?_, scheme_of_printed hform u.printedRest⟩
  exact hne (List.append_eq_nil_iff.mp hnil).1

/-- The host of an authority that is not refused ends at its bracket. -/
theorem closedHost_hostText {hostPort : Bytes} (h : ¬ RefusedAuthority hostPort) :
    ClosedHost (hostText hostPort) := by
  intro hhead
  by_cases hopen : hostPort.head? = some (chr '[')
  · have hclose : chr ']' ∈ hostPort := by
      by_contra habs
      exact h (.inl ⟨hopen, habs⟩)
    have hbefore : (before (chr ']') hostPort).head? = some (chr '[') :=
      (Text.head?_before (by decide) hostPort).mpr hopen
    obtain ⟨inside, hinside⟩ : ∃ inside, before (chr ']') hostPort = chr '[' :: inside :=
      ⟨_, List.eq_cons_of_mem_head? hbefore⟩
    have habs := Text.not_mem_before (chr ']') hostPort
    rw [hinside, List.mem_cons, not_or] at habs
    exact ⟨inside, by rw [hostText, if_pos hopen, hinside], habs.2⟩
  · have hprefix : hostText hostPort <+: hostPort := by
      rw [hostText, if_neg hopen]
      split
      · exact List.take_prefix _ _
      · exact List.prefix_refl _
    obtain ⟨rest, hrest⟩ := hprefix
    refine absurd ?_ hopen
    rw [← hrest, List.head?_append, hhead]
    rfl

/-- With a scheme, the printed form is canonical when host, port and query are
kept. -/
theorem canonicalText_of_scheme {raw : Bytes} (hacc : ¬ Rejects raw)
    (hne : schemePart raw ≠ []) (hform : SchemeForm (schemePart raw)) :
    CanonicalText (read raw).toString ↔
      (hostText (authority raw) = [] ∨ HostKept (schemePart raw) (hostText (authority raw))
        (portPart (schemePart raw) (authority raw))) ∧
      (readQuery (queryText raw))[([] : Bytes)]? ≠ some [] := by
  obtain ⟨htext, hscheme, hrest⟩ := scheme_of_toString (u := read raw) hne hform
  have hclosed := closedHost_hostText fun href => hacc (rejects_iff.mpr (.inr href))
  rw [canonicalText_iff_parts (printable_read raw) htext hscheme hrest]
  exact and_congr_left fun _ => authority_kept_or_nil_iff hclosed

/-! ## Texts without a scheme -/

/-- A URL without scheme and host is printed as its path, query and fragment, and
its text is canonical when the query is kept, as long as no `"://"` stands in it. -/
theorem canonicalText_of_no_scheme {u : URL} (h : u.Printable) (hscheme : u.scheme = [])
    (hfind : find (ascii "://") u.toString = none) :
    CanonicalText u.toString ↔
      u.domainName = [] ∧ u.queryParameters[([] : Bytes)]? ≠ some [] := by
  have htext : u.toString = u.printedRest := by
    rw [toString_eq, if_neg (not_not_intro hscheme), List.nil_append]
  have hrest : afterScheme u.toString = u.printedRest := by
    rw [afterScheme, hfind]
    exact htext
  by_cases hhost : u.domainName = []
  · have hauthority : u.printedAuthority = [] := if_neg (not_not_intro hhost)
    have hhead : u.toString.head? = some (chr '/') := by
      rw [htext, printedRest, hauthority, List.nil_append, List.append_assoc, List.head?_append,
        h.pathHead]
      rfl
    have hne : u.toString ≠ [] := fun hnil => by rw [hnil] at hhead; cases hhead
    have hpart : schemePart u.toString = u.scheme := by
      rw [schemePart, hfind, hscheme]
      exact if_pos hhead
    rw [canonicalText_iff_parts h hne hpart hrest, hauthority]
    refine ⟨fun hkept => ⟨hhost, hkept.2⟩, fun hkept => ⟨⟨not_refused_nil, rfl⟩, hkept.2⟩⟩
  · -- the host is taken for one without scheme, which is then printed with `http`
    refine iff_of_false (fun hcanonical => ?_) fun hkept => hhost hkept.1
    have hhead : u.toString.head? ≠ some (chr '/') := by
      rw [htext, printedRest, printedAuthority_eq, printAuthority, if_pos hhost]
      cases hname : u.domainName with
      | nil => exact absurd hname hhost
      | cons b name =>
          have habs := h.domain.1
          rw [hname, List.mem_cons, not_or] at habs
          simpa using Ne.symm habs.1
    have hhttp : (read u.toString).scheme = ascii "http" := by
      show schemePart u.toString = _
      rw [schemePart, hfind]
      exact if_neg hhead
    have hprint := (canonicalText_iff.mp hcanonical).2
    rw [toString_eq, hhttp, if_pos (by decide)] at hprint
    rw [Text.find_eq_none_iff_not_infix] at hfind
    exact hfind ⟨ascii "http", (read u.toString).printedRest, hprint⟩

theorem not_infix_printParam {pat : Bytes} (heq : chr '=' ∉ pat) {kv : Bytes × Bytes}
    (hkey : ¬ pat <:+: kv.1) (hvalue : ¬ pat <:+: kv.2) : ¬ pat <:+: printParam kv := by
  rw [printParam]
  split_ifs
  · exact Text.not_infix_append_sep heq hkey hvalue
  · rwa [List.append_nil]

/-- A pattern without the delimiters of the query is in no printed query unless it
is in a key or a value. -/
theorem not_infix_printParams {pat : Bytes} (hne : pat ≠ []) (hamp : chr '&' ∉ pat)
    (heq : chr '=' ∉ pat) {kvs : List (Bytes × Bytes)}
    (h : ∀ kv ∈ kvs, ¬ pat <:+: kv.1 ∧ ¬ pat <:+: kv.2) : ¬ pat <:+: printParams true kvs := by
  induction kvs with
  | nil => exact fun hnil => hne (List.infix_nil.mp hnil)
  | cons kv rest ih =>
      obtain ⟨hkey, hvalue⟩ := h kv List.mem_cons_self
      have hrest := ih fun kv hkv => h kv (List.mem_cons_of_mem _ hkv)
      rw [printParams_cons]
      split_ifs
      · rw [List.append_nil]
        exact not_infix_printParam heq hkey hvalue
      · exact Text.not_infix_append_sep hamp (not_infix_printParam heq hkey hvalue) hrest

/-- A text that is nowhere in a query is nowhere in what is printed for it. -/
theorem not_infix_readQuery {pat query : Bytes} (hne : pat ≠ []) (hamp : chr '&' ∉ pat)
    (heq : chr '=' ∉ pat) (hquery : ¬ pat <:+: query) :
    ¬ pat <:+: (printedQuery (readQuery query)).tail := by
  rw [(printedQuery_tail _).2]
  split_ifs
  · exact fun hnil => hne (List.infix_nil.mp hnil)
  · refine not_infix_printParams hne hamp heq ?_
    rintro ⟨key, value⟩ hkv
    obtain ⟨piece, hpiece, rfl, rfl⟩ :=
      piece_of_readQuery (Std.ExtTreeMap.mem_toList_iff_getElem?_eq_some.mp hkv)
    have hinside := Text.infix_of_mem_lines hpiece
    exact ⟨fun hocc => hquery (hocc.trans ((Text.before_isPrefix _ _).isInfix.trans hinside)),
      fun hocc => hquery (hocc.trans ((Text.after_suffix _ _).isInfix.trans hinside))⟩

/-- A raw string that begins with `/` and has no `"://"` is printed without one. -/
theorem find_toString_of_origin {raw : Bytes} (hhead : raw.head? = some (chr '/'))
    (hfind : find (ascii "://") raw = none) :
    find (ascii "://") (read raw).toString = none := by
  have hraw : afterScheme raw = raw := by rw [afterScheme, hfind]
  have hscheme : schemePart raw = [] := by
    rw [schemePart, hfind]
    exact if_pos hhead
  have hnot := Text.find_eq_none_iff_not_infix.mp hfind
  have hrest : (remainder raw).head? = some (chr '/') := by
    rw [remainder, hraw]
    exact (Text.head?_before (by decide) _).mpr ((Text.head?_before (by decide) _).mpr hhead)
  have hauthority : authority raw = [] := by
    rw [authority, (of_head?_slash hrest).1]
    rfl
  have hpath : pathText (remainder raw) <:+: raw := by
    rw [(of_head?_slash hrest).2, remainder, hraw]
    exact ((Text.before_isPrefix _ _).trans (Text.before_isPrefix _ _)).isInfix
  have hquery : queryText raw <:+: raw := by
    rw [queryText, hraw]
    exact (Text.after_suffix _ _).isInfix.trans (Text.before_isPrefix _ _).isInfix
  have hanchor : anchorText raw <:+: raw := by
    rw [anchorText, hraw]
    exact (Text.after_suffix _ _).isInfix
  have hprinted : ¬ ascii "://" <:+: (printedQuery (readQuery (queryText raw))).tail :=
    not_infix_readQuery (by decide) (by decide) (by decide) fun hocc =>
      hnot (hocc.trans hquery)
  have hfragment : ¬ ascii "://" <:+: (printedAnchor (anchorText raw)).tail := by
    rw [(printedAnchor_tail _).2]
    exact fun hocc => hnot (hocc.trans hanchor)
  have hnone : (read raw).printedAuthority = [] := by
    show printAuthority (schemePart raw) (hostText (authority raw)) _ = []
    rw [hauthority]
    rfl
  rw [Text.find_eq_none_iff_not_infix, toString_eq]
  show ¬ _ <:+: (if schemePart raw ≠ [] then _ else _) ++ _
  rw [if_neg (not_not_intro hscheme), List.nil_append, printedRest, hnone, List.nil_append]
  refine Text.not_infix_append_tail (by decide) ?_ (printedAnchor_tail _).1 hfragment
  refine Text.not_infix_append_tail (by decide) ?_ (printedQuery_tail _).1 hprinted
  exact fun hocc => hnot (hocc.trans hpath)

/-! ## Every raw string -/

/-- The lost parameter, seen in the raw query. -/
theorem emptyParam_iff (query : Bytes) :
    (readQuery query)[([] : Bytes)]? = some [] ↔
      ((lines (chr '&') query).filter (·.head? = some (chr '='))).getLast? =
        some (ascii "=") := by
  rw [readQuery_emptyKey, Option.map_eq_some_iff]
  constructor
  · rintro ⟨piece, hlast, htail⟩
    have hmem := List.mem_of_getLast? hlast
    rw [List.mem_filter, decide_eq_true_eq] at hmem
    rw [hlast]
    cases piece with
    | nil => cases hmem.2
    | cons b rest =>
        obtain rfl := Option.some.inj hmem.2
        obtain rfl : rest = [] := htail
        rfl
  · exact fun hlast => ⟨ascii "=", hlast, rfl⟩

/-- The printed form of a raw string that is accepted is canonical exactly when its
host, port and query are kept.  Left out is a raw string that begins with `"://"`
and is printed with another one: its empty scheme is not printed, so the rest is
read with a scheme that it did not have. -/
theorem canonicalText_iff_formKept {raw : Bytes} {u : URL} (haccepted : parse raw = .ok u)
    (hscheme : ascii "://" <+: raw → ¬ ascii "://" <:+: u.toString) :
    CanonicalText u.toString ↔ FormKept raw := by
  obtain ⟨hacc, rfl⟩ := parse_eq_ok_iff.mp haccepted
  rw [FormKept, ne_eq, ← emptyParam_iff, and_comm]
  by_cases hempty : schemePart raw = []
  · have hnone : find (ascii "://") (read raw).toString = none := by
      cases hfind : find (ascii "://") raw with
      | none =>
          refine find_toString_of_origin ?_ hfind
          by_contra hhead
          rw [schemePart, hfind] at hempty
          rw [if_neg hhead] at hempty
          cases hempty
      | some schemeEnd =>
          have hzero : schemeEnd = 0 := by
            have hle : schemeEnd + 3 ≤ raw.length := Text.find_le (by decide) hfind
            rw [schemePart, hfind] at hempty
            have hlen : (toLowerCopy (raw.take schemeEnd)).length = 0 := congrArg List.length hempty
            rw [toLowerCopy, List.length_map, List.length_take] at hlen
            omega
          have hocc := (Text.find_eq_some_iff.mp hfind).1
          rw [hzero, List.drop_zero] at hocc
          exact Text.find_eq_none_iff_not_infix.mpr (hscheme hocc)
    rw [canonicalText_of_no_scheme (printable_read raw) hempty hnone]
    refine and_congr_left fun _ => ?_
    show hostText (authority raw) = [] ↔ _
    simp [hempty]
  · have hform : SchemeForm (schemePart raw) := by
      rw [schemePart]
      cases hfind : find (ascii "://") raw with
      | none =>
          rw [schemePart, hfind] at hempty
          simp only at hempty ⊢
          split_ifs at hempty ⊢ with hhead
          · exact absurd rfl hempty
          · exact schemeForm_of_not_mem (by decide) (by decide)
      | some schemeEnd => exact schemeForm_of_find hfind
    rw [canonicalText_of_scheme hacc hempty hform]
    refine and_congr_left fun _ => ?_
    simp [hempty]

/-- Host, port and query of this string are kept. -/
theorem canonicalText_iff_formKept_sample :
    CanonicalText (read (ascii "HTTP://user@h:8080/p?b&a=#f")).toString := by
  have hkept : FormKept (ascii "HTTP://user@h:8080/p?b&a=#f") := by
    refine ⟨by decide, .inr ⟨by decide, ?_⟩⟩
    exact ⟨by decide, .inl (by decide)⟩
  exact (canonicalText_iff_formKept (u := read (ascii "HTTP://user@h:8080/p?b&a=#f")) (by rfl)
    (fun h => absurd h (by decide))).mpr hkept

/-- Of two colons the last one ends the host, and a default port is not printed, so that the
first one is taken for it when the printed form is read.  In the same way, of two `@` the
parser strips the first one, and the second one is stripped when the printed form is read. -/
theorem not_canonicalText_authority :
    (∃ u, parse (ascii "http://a:b:80/") = .ok u ∧ ¬ CanonicalText u.toString) ∧
      ∃ u, parse (ascii "http://a@b@c/") = .ok u ∧ ¬ CanonicalText u.toString := by
  constructor
  · refine ⟨read (ascii "http://a:b:80/"), by rfl, ?_⟩
    rintro ⟨u, hparse, -⟩
    have hrefused : (parse (read (ascii "http://a:b:80/")).toString).toOption = none := by rfl
    rw [hparse] at hrefused
    cases hrefused
  · refine ⟨read (ascii "http://a@b@c/"), by rfl, ?_⟩
    rintro ⟨u, hparse, hprint⟩
    have hread : parse (read (ascii "http://a@b@c/")).toString =
        .ok (read (ascii "http://c/")) := by rfl
    obtain rfl := Except.ok.inj (hread.symm.trans hparse)
    revert hprint
    decide

end URL

end Fion.Http
