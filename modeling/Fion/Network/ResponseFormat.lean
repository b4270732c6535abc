import Fion.Network.HeaderBlock

/-!
# Reading a response back

A response goes over the wire as a status line, header lines, the empty line and the
body, and nothing is escaped.  Cut like a request, it gives back its headers and its
body (`SplitsBack`) when every header fits on its line, the separator first stands
behind the key, and the last line does not end in a carriage return (`Printable`).

It does so in no other case (`splitsBack_iff`): what is read from lines contains no
line feed, and a key that is read contains no separator, so a map that comes back has
only such keys and values.
-/

namespace Fion.Network

open Cpp (Bytes ascii cr lf)
open Text (find lines)
open Http (Response Headers StringMap StatusCode Version)

/-! ## Building responses -/

/-- A call of one of the setters of a response. -/
inductive Setter where
  | setVersion (version : Version)
  | setStatusCode (statusCode : StatusCode)
  | setHeader (key value : Bytes)
  | setBody (body : Bytes)

/-- What the call does. -/
def Setter.apply (r : Response) : Setter → Response
  | .setVersion version => r.setVersion version
  | .setStatusCode statusCode => r.setStatusCode statusCode
  | .setHeader key value => r.setHeader key value
  | .setBody body => r.setBody body

/-- The response that a sequence of setter calls builds. -/
def buildResponse (setters : List Setter) : Response := setters.foldl Setter.apply {}

/-! ## The round trip -/

/-- Cut at the first line end and at the first empty line, the bytes give back the
headers and the body of the response. -/
def SplitsBack (r : Response) (raw : Bytes) : Prop :=
  ∃ startLine block, splitRequest raw = .ok (.parts startLine block r.body) ∧
    Headers.parseFromRaw ∅ block = r.headers

/-- Every header fits on its line, and no carriage return stands at the end of the
last one. -/
structure Printable (h : Headers) : Prop where
  oneLine : ∀ kv ∈ h.toList, OneLine kv
  last : ∀ kv ∈ h.toList.getLast?, kv.2.getLast? ≠ some cr

/-- A printed response is a status line, header lines and a body. -/
theorem toRawResponse_eq {r : Response} {raw : Bytes} (h : r.toRawResponse = .ok raw) :
    ∃ startLine, lf ∉ startLine ∧ raw = startLine ++ [cr, lf] ++
      r.headers.toList.flatMap (fun kv => headerLine kv ++ [cr, lf]) ++ [cr, lf] ++ r.body := by
  obtain ⟨startLine, hline, rfl⟩ := Response.toRawResponse_eq_ok_iff.mp h
  exact ⟨startLine, Response.lf_not_mem_statusLine hline, rfl⟩

/-- What a line without a line feed stores fits on one line. -/
theorem oneLine_of_stores {line key value : Bytes} (hline : lf ∉ line)
    (h : Headers.Stores line key value) : OneLine (key, value) := by
  obtain ⟨pos, hfind, rfl, rfl⟩ := h
  have hpop : ∀ v : Bytes, Headers.popCR v <:+: v := by
    intro v
    rw [Headers.popCR]
    split
    · exact (List.dropLast_prefix v).isInfix
    · exact List.infix_rfl
  refine ⟨fun hmem => hline (List.mem_of_mem_take hmem), ?_, fun hmem =>
    hline (List.mem_of_mem_drop ((hpop _).subset hmem))⟩
  -- an occurrence in front of the first one
  cases hkey : find (ascii ": ") (line.take pos) with
  | none => rfl
  | some i =>
      have hsep : ascii ": " ≠ [] := by decide
      have hle := Text.find_le hsep hkey
      have hfirst := Text.find_append_of_some hsep hkey (line.drop pos)
      rw [List.take_append_drop, hfind] at hfirst
      obtain rfl := Option.some.inj hfirst
      rw [List.length_take] at hle
      have htwo : (ascii ": ").length = 2 := rfl
      omega

/-- What is read from a block fits on one line each. -/
theorem oneLine_of_parseFromRaw {block : Bytes} {kv : Bytes × Bytes}
    (h : kv ∈ (Headers.parseFromRaw ∅ block).toList) : OneLine kv := by
  obtain ⟨key, value⟩ := kv
  rw [Std.ExtTreeMap.mem_toList_iff_getElem?_eq_some] at h
  rcases Headers.exists_stores_of_parseLines h with hempty | ⟨line, hread, hstores⟩
  · simp at hempty
  · have hline : line ∈ lines lf block := (List.takeWhile_prefix _).subset hread
    exact oneLine_of_stores (Text.not_mem_of_mem_lines hline) hstores

/-- The last value is read without a carriage return at its end. -/
theorem popLast_append (kvs : List (Bytes × Bytes)) (kv : Bytes × Bytes) :
    popLast (kvs ++ [kv]) = kvs ++ [(kv.1, Headers.popCR kv.2)] := by
  induction kvs with
  | nil => rfl
  | cons kv' kvs ih =>
      cases kvs with
      | nil => rfl
      | cons kv'' kvs => exact congrArg (kv' :: ·) ih

/-- The keys are read as they are. -/
theorem map_fst_popLast (kvs : List (Bytes × Bytes)) :
    (popLast kvs).map Prod.fst = kvs.map Prod.fst := by
  rcases List.eq_nil_or_concat kvs with rfl | ⟨kvs, kv, rfl⟩
  · rfl
  · simp [popLast_append]

/-- The headers are read back as the same map exactly when the last value does not
end in a carriage return. -/
theorem insertMany_popLast_iff (h : Headers) :
    (∅ : Headers).insertMany (popLast h.toList) = h ↔
      ∀ kv ∈ h.toList.getLast?, kv.2.getLast? ≠ some cr := by
  have hnodup : ((popLast h.toList).map Prod.fst).Nodup := by
    rw [map_fst_popLast]
    exact Headers.nodup_keys h
  constructor
  · intro heq kv hkv hcr
    obtain ⟨kvs, hkvs⟩ := List.getLast?_eq_some_iff.mp hkv
    have hmem : kv ∈ h.toList := by rw [hkvs]; simp
    have hpopped : (kv.1, Headers.popCR kv.2) ∈ popLast h.toList := by
      rw [hkvs, popLast_append]
      simp
    rw [← Headers.getElem?_insertMany_iff hnodup, heq,
      Std.ExtTreeMap.mem_toList_iff_getElem?_eq_some.mp hmem] at hpopped
    have hlen := congrArg List.length (Option.some.inj hpopped)
    have hne : kv.2 ≠ [] := by
      intro hnil
      rw [hnil] at hcr
      cases hcr
    rw [Headers.popCR, if_pos hcr, List.length_dropLast] at hlen
    have hpos := List.length_pos_iff.mpr hne
    omega
  · intro hlast
    have hsame : popLast h.toList = h.toList := by
      rcases List.eq_nil_or_concat h.toList with hnil | ⟨kvs, kv, hkvs⟩
      · rw [hnil, popLast]
      · have hcr : kv.2.getLast? ≠ some cr := hlast kv (by rw [hkvs]; simp)
        rw [hkvs, List.concat_eq_append, popLast_append, Headers.popCR_of_getLast?_ne hcr]
    rw [hsame, Headers.insertMany_toList]

/-- A printed response is read back exactly when its headers fit on their lines. -/
theorem splitsBack_iff {r : Response} {raw : Bytes} (h : r.toRawResponse = .ok raw) :
    SplitsBack r raw ↔ Printable r.headers := by
  obtain ⟨startLine, hstart, rfl⟩ := toRawResponse_eq h
  constructor
  · intro hback
    obtain ⟨startLine', block, hsplit, hparse⟩ := hback
    have hlines : ∀ kv ∈ r.headers.toList, OneLine kv := by
      intro kv hkv
      rw [← hparse] at hkv
      exact oneLine_of_parseFromRaw hkv
    obtain ⟨block', hsplit', hparse'⟩ := splitRequest_message hstart hlines r.body
    obtain ⟨-, rfl, -⟩ := Parts.parts.inj (Except.ok.inj (hsplit.symm.trans hsplit'))
    rw [hparse'] at hparse
    exact ⟨hlines, (insertMany_popLast_iff r.headers).mp hparse⟩
  · intro hprintable
    obtain ⟨block, hsplit, hparse⟩ := splitRequest_message hstart hprintable.oneLine r.body
    exact ⟨startLine, block, hsplit,
      (hparse ∅).trans ((insertMany_popLast_iff r.headers).mpr hprintable.last)⟩

/-- A response that setters built and that prints is read back exactly when its
headers fit on their lines. -/
theorem splitsBack_buildResponse_iff (setters : List Setter) {raw : Bytes}
    (h : (buildResponse setters).toRawResponse = .ok raw) :
    SplitsBack (buildResponse setters) raw ↔ Printable (buildResponse setters).headers :=
  splitsBack_iff h

/-- A response with two headers, and a body that looks like one. -/
def cookieSetters : List Setter :=
  [.setStatusCode .notFound, .setHeader (ascii "Set-Cookie") (ascii "a=b; Path=/"),
   .setHeader (ascii "Allow:") [], .setBody (ascii "X: y\r\n\r\n")]

theorem splitsBack_cookieSetters : ∃ raw,
    (buildResponse cookieSetters).toRawResponse = .ok raw ∧
    SplitsBack (buildResponse cookieSetters) raw := by
  have hlist : (buildResponse cookieSetters).headers.toList =
      [(ascii "Allow:", []), (ascii "Set-Cookie", ascii "a=b; Path=/")] := by decide
  refine ⟨_, rfl, (splitsBack_buildResponse_iff cookieSetters rfl).mpr ⟨?_, ?_⟩⟩
  · rw [hlist]
    intro kv hkv
    rcases List.mem_pair.mp hkv with rfl | rfl
    · exact ⟨by decide, by decide, by decide⟩
    · exact ⟨by decide, by decide, by decide⟩
  · rw [hlist]
    intro kv hkv
    obtain rfl := Option.some.inj hkv
    decide

/-- A value with a line end in it starts a header of its own, and one with two starts
the body. -/
theorem not_splitsBack_of_line_end :
    (buildResponse [.setHeader (ascii "X") (ascii "a\r\nSet-Cookie: b\r\n\r\nc")]).toRawResponse =
      .ok (ascii "HTTP/1.1 200 OK\r\nX: a\r\nSet-Cookie: b\r\n\r\nc\r\n\r\n") ∧
    splitRequest (ascii "HTTP/1.1 200 OK\r\nX: a\r\nSet-Cookie: b\r\n\r\nc\r\n\r\n") =
      .ok (.parts (ascii "HTTP/1.1 200 OK") (ascii "X: a\r\nSet-Cookie: b") (ascii "c\r\n\r\n")) ∧
    ¬ SplitsBack
      (buildResponse [.setHeader (ascii "X") (ascii "a\r\nSet-Cookie: b\r\n\r\nc")])
      (ascii "HTTP/1.1 200 OK\r\nX: a\r\nSet-Cookie: b\r\n\r\nc\r\n\r\n") := by
  have hsplit : splitRequest (ascii "HTTP/1.1 200 OK\r\nX: a\r\nSet-Cookie: b\r\n\r\nc\r\n\r\n") =
      .ok (.parts (ascii "HTTP/1.1 200 OK") (ascii "X: a\r\nSet-Cookie: b")
        (ascii "c\r\n\r\n")) := by decide
  refine ⟨by decide, hsplit, fun hback => ?_⟩
  obtain ⟨startLine, block, hsplit', -⟩ := hback
  obtain ⟨-, -, hbody⟩ := Parts.parts.inj (Except.ok.inj (hsplit.symm.trans hsplit'))
  exact absurd hbody (by decide)

end Fion.Network
