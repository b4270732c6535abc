import Fion.Network.ResponseFormat
import Fion.Text.Cut

/-!
# A response is determined by its bytes

The version, the number of the status code and its reason phrase stand on the first line,
with blanks between them that none of the first two contains.  So the line determines the
version and the code (`statusLine_injective`).  Behind it a response whose headers fit on
their lines is cut back into its headers and its body, and the bytes determine all of it
(`toRawResponse_injective`).
-/

namespace Fion.Network

open Cpp (Bytes ascii cr lf printNat)
open Text (before after)
open Http (Response Version)

/-- A name stands for one version. -/
theorem versionToString_injective {v v' : Version} {name : Bytes}
    (h : Http.versionToString v = .ok name) (h' : Http.versionToString v' = .ok name) : v = v' := by
  have hv := Http.stringToVersion_eq_ok_iff.mpr h
  rw [Http.stringToVersion_eq_ok_iff.mpr h'] at hv
  exact (Except.ok.inj hv).symm

theorem printNat_injective {a b : Nat} (h : printNat a = printNat b) : a = b := by
  rw [← Cpp.decimal_printNat a, h, Cpp.decimal_printNat]

/-- The name of a version contains no blank. -/
theorem blank_not_mem_versionToString {v : Version} {name : Bytes}
    (h : Http.versionToString v = .ok name) : 32 ∉ name := by
  have hword := (Http.not_isspace_of_stringToVersion (Http.stringToVersion_eq_ok_iff.mpr h)).2
  intro hmem
  exact absurd (hword 32 hmem) (by decide)

/-- The first two words of a status line are the version and the code. -/
theorem words_of_statusLine {r : Response} {line : Bytes} (h : r.statusLine = .ok line) :
    Http.versionToString r.version = .ok (before 32 line) ∧
      printNat r.statusCode.toUInt16.toNat = before 32 (after 32 line) := by
  obtain ⟨name, hname, h⟩ := Cpp.bind_eq_ok.mp h
  obtain ⟨reason, -, h⟩ := Cpp.bind_eq_ok.mp h
  obtain rfl := Except.ok.inj h
  have hblank := blank_not_mem_versionToString hname
  have hdigits : 32 ∉ printNat r.statusCode.toUInt16.toNat := Cpp.not_mem_printNat (by decide) _
  have hshape : name ++ ascii " " ++ printNat r.statusCode.toUInt16.toNat ++ ascii " " ++ reason =
      name ++ 32 :: (printNat r.statusCode.toUInt16.toNat ++ 32 :: reason) := by
    simp [ascii]
  rw [hshape, Text.before_append_sep hblank, Text.after_append_sep hblank,
    Text.before_append_sep hdigits]
  exact ⟨hname, rfl⟩

theorem statusLine_injective {r r' : Response} {line : Bytes} (h : r.statusLine = .ok line)
    (h' : r'.statusLine = .ok line) : r.version = r'.version ∧ r.statusCode = r'.statusCode := by
  obtain ⟨hversion, hcode⟩ := words_of_statusLine h
  obtain ⟨hversion', hcode'⟩ := words_of_statusLine h'
  refine ⟨versionToString_injective hversion hversion', ?_⟩
  have hnumber := UInt16.toNat_inj.mp (printNat_injective (hcode.trans hcode'.symm))
  exact congrArg Int16.ofUInt16 hnumber

/-- The status line stands in front of the first line feed. -/
theorem statusLine_of_toRawResponse {r : Response} {raw : Bytes}
    (h : r.toRawResponse = .ok raw) :
    ∃ line, r.statusLine = .ok line ∧ before lf raw = line ++ [cr] := by
  obtain ⟨line, hline, rfl⟩ := Response.toRawResponse_eq_ok_iff.mp h
  have hlf : lf ∉ line ++ [cr] := by
    rw [List.mem_append, not_or]
    exact ⟨Response.lf_not_mem_statusLine hline, by decide⟩
  refine ⟨line, hline, ?_⟩
  rw [show line ++ [cr, lf] ++ r.headers.toRawString ++ [cr, lf] ++ r.body =
    line ++ [cr] ++ lf :: (r.headers.toRawString ++ [cr, lf] ++ r.body) by simp]
  exact Text.before_append_sep hlf _

/-- Two responses whose headers fit on their lines and that are printed as the same bytes
are the same. -/
theorem toRawResponse_injective {r r' : Response} (hr : Printable r.headers)
    (hr' : Printable r'.headers) {raw : Bytes} (h : r.toRawResponse = .ok raw)
    (h' : r'.toRawResponse = .ok raw) : r = r' := by
  obtain ⟨line, hline, hfirst⟩ := statusLine_of_toRawResponse h
  obtain ⟨line', hline', hfirst'⟩ := statusLine_of_toRawResponse h'
  obtain rfl : line = line' := List.append_cancel_right (hfirst.symm.trans hfirst')
  obtain ⟨hversion, hcode⟩ := statusLine_injective hline hline'
  -- the headers and the body are read back
  obtain ⟨start, block, hsplit, hheaders⟩ := (splitsBack_iff h).mpr hr
  obtain ⟨start', block', hsplit', hheaders'⟩ := (splitsBack_iff h').mpr hr'
  obtain ⟨-, rfl, hbody⟩ := Parts.parts.inj (Except.ok.inj (hsplit.symm.trans hsplit'))
  obtain ⟨version, code, headers, body⟩ := r
  obtain ⟨version', code', headers', body'⟩ := r'
  obtain rfl := hversion
  obtain rfl := hcode
  obtain rfl := hheaders.symm.trans hheaders'
  obtain rfl := hbody
  rfl

/-- A map with these two headers fits on its lines. -/
theorem printable_of_toList {h : Http.Headers}
    (hlist : h.toList = [(ascii "Allow:", []), (ascii "Set-Cookie", ascii "a=b; Path=/")]) :
    Printable h := by
  refine ⟨?_, ?_⟩
  · rw [hlist]
    intro kv hkv
    rcases List.mem_pair.mp hkv with rfl | rfl
    · exact ⟨by decide, by decide, by decide⟩
    · exact ⟨by decide, by decide, by decide⟩
  · rw [hlist]
    intro kv hkv
    obtain rfl := Option.some.inj hkv
    decide

/-- Setters for different parts of a response may come in any order. -/
theorem cookieSetters_reversed :
    buildResponse cookieSetters.reverse = buildResponse cookieSetters := by
  have hprintable : Printable (buildResponse cookieSetters).headers :=
    printable_of_toList (by decide)
  have hprintable' : Printable (buildResponse cookieSetters.reverse).headers :=
    printable_of_toList (by decide)
  exact toRawResponse_injective hprintable' hprintable rfl rfl

end Fion.Network
