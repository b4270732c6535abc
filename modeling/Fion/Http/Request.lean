import Fion.Http.Url
import Fion.Http.Version

/-!
# Requests

Methods, and the `Request` constructor.  The start line is read as three words
with `>>`.  Each of its three conversions catches `std::invalid_argument` and
throws its own, and the constructor catches that one again, so every rejected
start line ends in the same exception.

`Method.name` is not a function of the source.  It is the name a method was
accepted under, the inverse of `stringToMethod`.
-/

namespace Fion.Http

open Cpp (Bytes Exn ascii extract isspace rethrowInvalid)

/-! ## Methods -/

/-- The request methods. -/
inductive Method where
  | get
  | head
  | post
  | put
  | delete
  | connect
  | options
  | trace
  | patch
deriving DecidableEq, Repr

/-- The method a name stands for. -/
def stringToMethod (rawMethod : Bytes) : Except Exn Method :=
  if rawMethod = ascii "GET" then .ok .get
  else if rawMethod = ascii "HEAD" then .ok .head
  else if rawMethod = ascii "POST" then .ok .post
  else if rawMethod = ascii "PUT" then .ok .put
  else if rawMethod = ascii "DELETE" then .ok .delete
  else if rawMethod = ascii "CONNECT" then .ok .connect
  else if rawMethod = ascii "OPTIONS" then .ok .options
  else if rawMethod = ascii "TRACE" then .ok .trace
  else if rawMethod = ascii "PATCH" then .ok .patch
  else .error (.invalidArgument "Invalid HTTP Method")

/-- The name a method is accepted under. -/
def Method.name : Method → Bytes
  | .get => ascii "GET"
  | .head => ascii "HEAD"
  | .post => ascii "POST"
  | .put => ascii "PUT"
  | .delete => ascii "DELETE"
  | .connect => ascii "CONNECT"
  | .options => ascii "OPTIONS"
  | .trace => ascii "TRACE"
  | .patch => ascii "PATCH"

/-- Each method has exactly one accepted name. -/
theorem stringToMethod_eq_ok_iff {s : Bytes} {m : Method} :
    stringToMethod s = .ok m ↔ s = m.name := by
  constructor
  · intro h
    rw [stringToMethod] at h
    split_ifs at h
    all_goals
      obtain rfl := Except.ok.inj h
      assumption
  · rintro rfl
    cases m <;> decide

/-- An accepted method name is one word. -/
theorem Method.name_word (m : Method) : m.name ≠ [] ∧ ∀ b ∈ m.name, isspace b = false := by
  have hword : m.name ≠ [] ∧ m.name.all (!isspace ·) = true := by
    cases m <;> decide
  exact ⟨hword.1, Cpp.not_isspace_of_all hword.2⟩

/-! ## The constructor -/

/-- The class `Request`. -/
structure Request where
  method : Method
  url : URL
  version : Version
  headers : Headers
  body : Bytes

/-- `parseStartLine`: three words, converted in order. -/
def parseStartLine (rawStartLine : Bytes) : Except Exn (Method × URL × Version) :=
  let (rawMethod, rest) := extract rawStartLine
  let (rawURL, rest) := extract rest
  let (rawVersion, _) := extract rest
  do
    let method ← rethrowInvalid "Invalid HTTP Method" (stringToMethod rawMethod)
    let url ← rethrowInvalid "Invalid URL" (URL.parse rawURL)
    let version ← rethrowInvalid "Invalid HTTP Version" (stringToVersion rawVersion)
    return (method, url, version)

/-- The constructor from the three raw parts.  Parsing the headers and the body
throws nothing. -/
def Request.make (rawStartLine rawHeaders rawBody : Bytes) : Except Exn Request := do
  let (method, url, version) ← rethrowInvalid "Invalid HTTP Request" (parseStartLine rawStartLine)
  return { method := method, url := url, version := version
           headers := Headers.parseFromRaw ∅ rawHeaders, body := rawBody }

/-- The first three words of a line are a method, a target and a version that are
accepted. -/
structure AcceptedStartLine (rawStartLine : Bytes) : Prop where
  method : ∃ method : Method, (extract rawStartLine).1 = method.name
  url : ∃ url, URL.parse (extract (extract rawStartLine).2).1 = .ok url
  version : ∃ version,
    stringToVersion (extract (extract (extract rawStartLine).2).2).1 = .ok version

/-- The constructor accepts what has such a line in front. -/
theorem Request.exists_make_iff {rawStartLine rawHeaders rawBody : Bytes} :
    (∃ request, Request.make rawStartLine rawHeaders rawBody = .ok request) ↔
      AcceptedStartLine rawStartLine := by
  simp only [Request.make, parseStartLine, Cpp.bind_eq_ok, Cpp.rethrowInvalid_eq_ok_iff]
  constructor
  · rintro ⟨request, parts, ⟨method, hmethod, url, hurl, version, hversion, -⟩, -⟩
    exact ⟨⟨method, stringToMethod_eq_ok_iff.mp hmethod⟩, ⟨url, hurl⟩, ⟨version, hversion⟩⟩
  · rintro ⟨⟨method, hmethod⟩, ⟨url, hurl⟩, ⟨version, hversion⟩⟩
    exact ⟨_, _, ⟨method, stringToMethod_eq_ok_iff.mpr hmethod, url, hurl, version, hversion,
      rfl⟩, rfl⟩

/-- Three words separated by single blanks are the three raw parts. -/
theorem parseStartLine_words {m t v : Bytes} (hm : m ≠ [] ∧ ∀ b ∈ m, isspace b = false)
    (ht : t ≠ [] ∧ ∀ b ∈ t, isspace b = false) (hv : v ≠ [] ∧ ∀ b ∈ v, isspace b = false) :
    parseStartLine (m ++ ascii " " ++ t ++ ascii " " ++ v) = do
      let method ← rethrowInvalid "Invalid HTTP Method" (stringToMethod m)
      let url ← rethrowInvalid "Invalid URL" (URL.parse t)
      let version ← rethrowInvalid "Invalid HTTP Version" (stringToVersion v)
      return (method, url, version) := by
  have hsp : ascii " " = [32] := rfl
  have h32 : isspace 32 = true := by decide
  have h₁ : extract (m ++ ascii " " ++ t ++ ascii " " ++ v) = (m, 32 :: (t ++ 32 :: v)) := by
    simp only [hsp, List.append_assoc, List.singleton_append]
    exact Cpp.extract_word hm.1 hm.2 (by simp [h32])
  have h₂ : extract (32 :: (t ++ 32 :: v)) = (t, 32 :: v) := by
    rw [Cpp.extract_cons_of_isspace h32]
    exact Cpp.extract_word ht.1 ht.2 (by simp [h32])
  have h₃ : extract (32 :: v) = (v, []) := by
    rw [Cpp.extract_cons_of_isspace h32]
    have hend : extract (v ++ []) = (v, []) := Cpp.extract_word hv.1 hv.2 (by simp)
    rwa [List.append_nil] at hend
  simp only [parseStartLine, h₁, h₂, h₃]

end Fion.Http
