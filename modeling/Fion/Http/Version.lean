import Fion.Cpp.Strings

/-!
# HTTP versions

The enumeration `Version` and its two conversions.  A scoped enumeration of C++
can hold every value of its underlying type, so a value outside the enumerators
exists too (`Version.other`).  `versionToString` throws on it.
-/

namespace Fion.Http

open Cpp (Bytes Exn ascii isspace)

/-- The HTTP versions. -/
inductive Version where
  | http09
  | http10
  | http11
  | http20
  | http30
  /-- A value that a cast produces and that is no enumerator. -/
  | other (value : Int)
deriving DecidableEq, Repr

/-- The version a name stands for. -/
def stringToVersion (rawVersion : Bytes) : Except Exn Version :=
  if rawVersion = ascii "HTTP/0.9" then .ok .http09
  else if rawVersion = ascii "HTTP/1.0" then .ok .http10
  else if rawVersion = ascii "HTTP/1.1" then .ok .http11
  else if rawVersion = ascii "HTTP/2.0" then .ok .http20
  else if rawVersion = ascii "HTTP/3.0" then .ok .http30
  else .error (.invalidArgument "Invalid HTTP Version")

/-- The name of a version. -/
def versionToString : Version → Except Exn Bytes
  | .http09 => .ok (ascii "HTTP/0.9")
  | .http10 => .ok (ascii "HTTP/1.0")
  | .http11 => .ok (ascii "HTTP/1.1")
  | .http20 => .ok (ascii "HTTP/2.0")
  | .http30 => .ok (ascii "HTTP/3.0")
  | .other _ => .error (.invalidArgument "Unknown HTTP Version")

/-- The two conversions are inverse on the accepted names. -/
theorem stringToVersion_eq_ok_iff {s : Bytes} {v : Version} :
    stringToVersion s = .ok v ↔ versionToString v = .ok s := by
  constructor
  · intro h
    rw [stringToVersion] at h
    split_ifs at h with h09 h10 h11 h20 h30
    all_goals
      obtain rfl := Except.ok.inj h
      simp only [versionToString, *]
  · intro h
    cases v with
    | other n => simp [versionToString] at h
    | http09 => obtain rfl := Except.ok.inj h; decide
    | http10 => obtain rfl := Except.ok.inj h; decide
    | http11 => obtain rfl := Except.ok.inj h; decide
    | http20 => obtain rfl := Except.ok.inj h; decide
    | http30 => obtain rfl := Except.ok.inj h; decide

/-- An accepted version name is one word. -/
theorem not_isspace_of_stringToVersion {s : Bytes} {v : Version} (h : stringToVersion s = .ok v) :
    s ≠ [] ∧ ∀ b ∈ s, isspace b = false := by
  have hname := stringToVersion_eq_ok_iff.mp h
  have hword : s ≠ [] ∧ s.all (!isspace ·) = true := by
    cases v with
    | other n => simp [versionToString] at hname
    | http09 => obtain rfl := Except.ok.inj hname; decide
    | http10 => obtain rfl := Except.ok.inj hname; decide
    | http11 => obtain rfl := Except.ok.inj hname; decide
    | http20 => obtain rfl := Except.ok.inj hname; decide
    | http30 => obtain rfl := Except.ok.inj hname; decide
  exact ⟨hword.1, Cpp.not_isspace_of_all hword.2⟩

end Fion.Http
