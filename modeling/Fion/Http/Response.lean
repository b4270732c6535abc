import Fion.Http.Headers
import Fion.Http.Version

/-!
# Responses

The enumeration `StatusCode` has the underlying type `int16_t`, so a response can
carry any such value.  `statusCodeToString` throws on those without a reason
phrase, and `toRawResponse` throws with it.  Printing the headers and the body
throws nothing.
-/

namespace Fion.Http

open Cpp (Bytes Exn ascii cr lf printNat)

/-- A status code. -/
abbrev StatusCode := Int16

namespace StatusCode

def ok : StatusCode := 200
def badRequest : StatusCode := 400
def notFound : StatusCode := 404
def internalServerError : StatusCode := 500

/-- The status codes that have a reason phrase. -/
def reasons : List (StatusCode × String) :=
  [(100, "Continue"), (101, "Switching Protocols"), (102, "Processing"), (103, "Early Hints"),
   (200, "OK"), (201, "Created"), (202, "Accepted"), (203, "Non-Authoritative Information"),
   (204, "No Content"), (205, "Reset Content"), (206, "Partial Content"), (207, "Multi-Status"),
   (208, "Already Reported"), (226, "IM Used"),
   (300, "Multiple Choices"), (301, "Moved Permanently"), (302, "Found"), (303, "See Other"),
   (304, "Not Modified"), (305, "Use Proxy"), (306, "Unused"), (307, "Temporary Redirect"),
   (308, "Permanent Redirect"),
   (400, "Bad Request"), (401, "Unauthorized"), (402, "Payment Required"), (403, "Forbidden"),
   (404, "Not Found"), (405, "Method Not Allowed"), (406, "Not Acceptable"),
   (407, "Proxy Authentication Required"), (408, "Request Timeout"), (409, "Conflict"),
   (410, "Gone"), (411, "Length Required"), (412, "Precondition Failed"),
   (413, "Content Too Large"), (414, "URI Too Long"), (415, "Unsupported Media Type"),
   (416, "Range Not Satisfiable"), (417, "Expectation Failed"), (418, "I'm a teapot"),
   (421, "Misdirected Request"), (422, "Unprocessable Content"), (423, "Locked"),
   (424, "Failed Dependency"), (425, "Too Early"), (426, "Upgrade Required"),
   (428, "Precondition Required"), (429, "Too Many Requests"),
   (431, "Request Header Fields Too Large"), (451, "Unavailable For Legal Reasons"),
   (500, "Internal Server Error"), (501, "Not Implemented"), (502, "Bad Gateway"),
   (503, "Service Unavailable"), (504, "Gateway Timeout"), (505, "HTTP Version Not Supported"),
   (506, "Variant Also Negotiates"), (507, "Insufficient Storage"), (508, "Loop Detected"),
   (510, "Not Extended"), (511, "Network Authentication Required")]

end StatusCode

/-- The reason phrase of a status code. -/
def statusCodeToString (statusCode : StatusCode) : Except Exn Bytes :=
  match StatusCode.reasons.lookup statusCode with
  | some reason => .ok (ascii reason)
  | none => .error (.invalidArgument "Unknown StatusCode")

/-- The class `Response`. -/
structure Response where
  version : Version := .http11
  statusCode : StatusCode := .ok
  headers : Headers := ∅
  body : Bytes := []

namespace Response

def setVersion (r : Response) (version : Version) : Response := { r with version := version }

def setStatusCode (r : Response) (statusCode : StatusCode) : Response :=
  { r with statusCode := statusCode }

def setHeader (r : Response) (key value : Bytes) : Response :=
  { r with headers := r.headers.set key value }

def setBody (r : Response) (body : Bytes) : Response := { r with body := body }

/-- The status line, without its line ending. -/
def statusLine (r : Response) : Except Exn Bytes := do
  let version ← versionToString r.version
  let reason ← statusCodeToString r.statusCode
  return version ++ ascii " " ++ printNat r.statusCode.toUInt16.toNat ++ ascii " " ++ reason

/-- The bytes that go over the wire. -/
def toRawResponse (r : Response) : Except Exn Bytes := do
  let startLine ← r.statusLine
  return startLine ++ [cr, lf] ++ r.headers.toRawString ++ [cr, lf] ++ r.body

/-- Only the status line can make printing fail. -/
theorem toRawResponse_eq_ok_iff {r : Response} {raw : Bytes} :
    r.toRawResponse = .ok raw ↔
      ∃ startLine, r.statusLine = .ok startLine ∧
        raw = startLine ++ [cr, lf] ++ r.headers.toRawString ++ [cr, lf] ++ r.body := by
  rw [toRawResponse, Cpp.bind_eq_ok]
  constructor
  · rintro ⟨startLine, hline, h⟩
    exact ⟨startLine, hline, (Except.ok.inj h).symm⟩
  · rintro ⟨startLine, hline, rfl⟩
    exact ⟨startLine, hline, rfl⟩

/-- A reason phrase is one line. -/
theorem lf_not_mem_statusCodeToString {statusCode : StatusCode} {reason : Bytes}
    (h : statusCodeToString statusCode = .ok reason) : lf ∉ reason := by
  rw [statusCodeToString] at h
  cases hlookup : StatusCode.reasons.lookup statusCode with
  | none =>
      rw [hlookup] at h
      cases h
  | some phrase =>
      rw [hlookup] at h
      obtain rfl := Except.ok.inj h
      have hall : (StatusCode.reasons.all fun p => !(ascii p.2).contains lf) = true := by
        decide +kernel
      obtain ⟨front, back, hreasons, -⟩ := List.lookup_eq_some_iff.mp hlookup
      have hmem : (statusCode, phrase) ∈ StatusCode.reasons := by
        rw [hreasons]
        exact List.mem_append_right front List.mem_cons_self
      simpa using List.all_eq_true.mp hall _ hmem

/-- So is the whole status line. -/
theorem lf_not_mem_statusLine {r : Response} {startLine : Bytes}
    (h : r.statusLine = .ok startLine) : lf ∉ startLine := by
  obtain ⟨version, hversion, h⟩ := Cpp.bind_eq_ok.mp h
  obtain ⟨reason, hreason, h⟩ := Cpp.bind_eq_ok.mp h
  obtain rfl := Except.ok.inj h
  have hblank : lf ∉ ascii " " := by decide
  have hname : lf ∉ version := by
    have hword := (not_isspace_of_stringToVersion (stringToVersion_eq_ok_iff.mpr hversion)).2
    exact fun hmem => absurd (hword lf hmem) (by decide)
  simp only [List.mem_append, not_or]
  exact ⟨⟨⟨⟨hname, hblank⟩, Cpp.lf_not_mem_printNat _⟩, hblank⟩,
    lf_not_mem_statusCodeToString hreason⟩

example : statusCodeToString 299 = .error (.invalidArgument "Unknown StatusCode") := by decide

end Response

end Fion.Http
