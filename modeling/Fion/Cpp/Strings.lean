import Fion.Text.Find
import Fion.Text.Lines
import Mathlib.Data.Nat.Digits.Defs

/-!
# Byte strings and number conversions

The part of the C++ standard library the server is written with.  A
`std::string` is a list of bytes, of which any value may occur.  A position is a
natural number and `npos` is `none`.  Reading a value out of a string may throw,
so those functions return `Except Exn`.

`size_t` subtraction wraps around at `2 ^ 64`.  `sizeSub` is that subtraction for
the values a `size_t` can hold (`sizeSub_eq_mod`).  It is the only arithmetic on
positions here that can leave the range of the type.
-/

namespace Cpp

/-- The bytes of a string. -/
abbrev Bytes := List UInt8

/-- The bytes of an ASCII literal. -/
def ascii (s : String) : Bytes := s.toList.map fun c => UInt8.ofNat c.toNat

/-- The byte of a character literal. -/
def chr (c : Char) : UInt8 := UInt8.ofNat c.toNat

/-! ## Exceptions -/

/-- An object that is thrown and caught as a `std::exception`. -/
inductive Exn where
  | invalidArgument (what : String)
  | outOfRange (what : String)
  | runtimeError (what : String)
  | regexError (what : String)
  /-- Any other class derived from `std::exception`, thrown by user code. -/
  | other (what : String)
deriving DecidableEq, Repr

/-- A computation that goes on with the value of another one returns exactly when
both do. -/
theorem bind_eq_ok {β γ : Type} {r : Except Exn β} {f : β → Except Exn γ} {c : γ} :
    (r >>= f) = .ok c ↔ ∃ b, r = .ok b ∧ f b = .ok c := by
  cases r with
  | ok b => simp [Bind.bind, Except.bind]
  | error e => simp [Bind.bind, Except.bind]

@[simp] theorem ok_bind {β γ : Type} (b : β) (f : β → Except Exn γ) :
    ((Except.ok b : Except Exn β) >>= f) = f b := rfl

/-- `try { .. } catch (const std::invalid_argument &) { throw
std::invalid_argument(what); }`.  Any other exception passes. -/
def rethrowInvalid {β : Type*} (what : String) : Except Exn β → Except Exn β
  | .error (.invalidArgument _) => .error (.invalidArgument what)
  | r => r

@[simp] theorem rethrowInvalid_ok {β : Type*} (what : String) (b : β) :
    rethrowInvalid what (.ok b) = .ok b := rfl

theorem rethrowInvalid_eq_ok_iff {β : Type*} {what : String} {r : Except Exn β} {b : β} :
    rethrowInvalid what r = .ok b ↔ r = .ok b := by
  cases r with
  | ok b' => rfl
  | error e => cases e <;> simp [rethrowInvalid]

/-! ## Characters -/

/-- Carriage return. -/
def cr : UInt8 := 13

/-- Line feed. -/
def lf : UInt8 := 10

/-- `isspace` in the C locale. -/
def isspace (b : UInt8) : Bool := b = 32 || (9 ≤ b && b ≤ 13)

/-- `isdigit`. -/
def isdigit (b : UInt8) : Bool := 48 ≤ b && b ≤ 57

/-- `tolower` in the C locale. -/
def tolower (b : UInt8) : UInt8 := if 65 ≤ b ∧ b ≤ 90 then b + 32 else b

theorem not_isdigit_cr : isdigit cr = false := by decide

theorem not_isspace_of_isdigit {b : UInt8} (h : isdigit b = true) : isspace b = false := by
  simp only [isdigit, isspace, Bool.and_eq_true, decide_eq_true_eq] at h ⊢
  grind

/-- Text without blanks, in a form that evaluates quickly. -/
theorem not_isspace_of_all {w : Bytes} (h : w.all (!isspace ·) = true) :
    ∀ b ∈ w, isspace b = false := by
  simpa using h

/-! ## Substrings -/

/-- `s.substr(pos, n)`. -/
def substr (s : Bytes) (pos n : Nat) : Except Exn Bytes :=
  if pos ≤ s.length then .ok ((s.drop pos).take n) else .error (.outOfRange "basic_string::substr")

/-- `s.substr(pos)`. -/
def substrFrom (s : Bytes) (pos : Nat) : Except Exn Bytes :=
  if pos ≤ s.length then .ok (s.drop pos) else .error (.outOfRange "basic_string::substr")

theorem substr_of_le {s : Bytes} {pos : Nat} (h : pos ≤ s.length) (n : Nat) :
    substr s pos n = .ok ((s.drop pos).take n) := if_pos h

theorem substrFrom_of_le {s : Bytes} {pos : Nat} (h : pos ≤ s.length) :
    substrFrom s pos = .ok (s.drop pos) := if_pos h

/-- The difference of two `size_t` values. -/
def sizeSub (a b : Nat) : Nat := if b ≤ a then a - b else 2 ^ 64 - (b - a)

theorem sizeSub_of_le {a b : Nat} (h : b ≤ a) : sizeSub a b = a - b := if_pos h

/-- `sizeSub` is subtraction modulo `2 ^ 64`. -/
theorem sizeSub_eq_mod {a b : Nat} (ha : a < 2 ^ 64) (hb : b < 2 ^ 64) :
    sizeSub a b = (a + (2 ^ 64 - b)) % 2 ^ 64 := by
  unfold sizeSub
  split
  · omega
  · omega

/-- `stream >> word`: skip blanks, then read up to the next one. -/
def extract (s : Bytes) : Bytes × Bytes :=
  let t := s.dropWhile isspace
  (t.takeWhile (!isspace ·), t.dropWhile (!isspace ·))

/-- A word behind blanks is read as if they were not there. -/
theorem extract_cons_of_isspace {b : UInt8} (hb : isspace b = true) (s : Bytes) :
    extract (b :: s) = extract s := by
  simp [extract, hb]

/-- A word is read up to the blank behind it. -/
theorem extract_word {w : Bytes} (hne : w ≠ []) (hw : ∀ b ∈ w, isspace b = false) {rest : Bytes}
    (hrest : ∀ b ∈ rest.head?, isspace b = true) : extract (w ++ rest) = (w, rest) := by
  have hskip : (w ++ rest).dropWhile isspace = w ++ rest := by
    cases w with
    | nil => exact absurd rfl hne
    | cons a w => simp [hw a (List.mem_cons_self ..)]
  have hall : ∀ b ∈ w, (!isspace b) = true := fun b hb => by simp [hw b hb]
  have hstop : rest.takeWhile (!isspace ·) = [] ∧ rest.dropWhile (!isspace ·) = rest := by
    cases rest with
    | nil => exact ⟨rfl, rfl⟩
    | cons b rest => simp [hrest b rfl]
  simp only [extract, hskip]
  rw [List.takeWhile_append_of_pos hall, List.dropWhile_append_of_pos hall, hstop.1, hstop.2,
    List.append_nil]

/-! ## Numbers -/

/-- The number a list of decimal digits denotes. -/
def decimal (ds : Bytes) : Nat := ds.foldl (fun n d => 10 * n + (d.toNat - 48)) 0

/-- Sign and digits at the front of a string, as `strtol` and `strtoull` scan
them: blanks, one optional sign, then the longest run of digits. -/
def scanNumber (s : Bytes) : Bool × Bytes :=
  match s.dropWhile isspace with
  | [] => (false, [])
  | b :: t =>
      if b = 45 then (true, t.takeWhile isdigit)
      else if b = 43 then (false, t.takeWhile isdigit)
      else (false, (b :: t).takeWhile isdigit)

/-- `std::stoull`.  A sign is accepted, and a minus sign negates modulo
`2 ^ 64`. -/
def stoull (s : Bytes) : Except Exn Nat :=
  match scanNumber s with
  | (_, []) => .error (.invalidArgument "stoull")
  | (negative, ds) =>
      if 2 ^ 64 ≤ decimal ds then .error (.outOfRange "stoull")
      else .ok (if negative then (2 ^ 64 - decimal ds) % 2 ^ 64 else decimal ds)

/-- `std::stoi`. -/
def stoi (s : Bytes) : Except Exn Int :=
  match scanNumber s with
  | (_, []) => .error (.invalidArgument "stoi")
  | (negative, ds) =>
      let n : Int := if negative then -decimal ds else decimal ds
      if -2 ^ 31 ≤ n ∧ n < 2 ^ 31 then .ok n else .error (.outOfRange "stoi")

/-- The decimal digits a stream prints for a number. -/
def printNat (n : Nat) : Bytes :=
  if n = 0 then [48] else ((Nat.digits 10 n).map fun d => UInt8.ofNat (48 + d)).reverse

theorem toNat_ofNat_digit {d : Nat} (h : d < 10) : (UInt8.ofNat (48 + d)).toNat = 48 + d :=
  UInt8.toNat_ofNat_of_lt' (show 48 + d < 256 by omega)

/-- Printed numbers are digits. -/
theorem isdigit_of_mem_printNat {n : Nat} : ∀ b ∈ printNat n, isdigit b = true := by
  intro b hb
  rw [printNat] at hb
  split at hb
  · obtain rfl := List.mem_singleton.mp hb
    decide
  · obtain ⟨d, hd, rfl⟩ := List.mem_map.mp (List.mem_reverse.mp hb)
    have hlt : d < 10 := Nat.digits_lt_base (by decide) hd
    simp only [isdigit, Bool.and_eq_true, decide_eq_true_eq, UInt8.le_iff_toNat_le,
      toNat_ofNat_digit hlt]
    exact ⟨Nat.le_add_right 48 d, show 48 + d ≤ 57 by omega⟩

/-- A byte that is no digit is not printed. -/
theorem not_mem_printNat {b : UInt8} (hb : isdigit b = false) (n : Nat) : b ∉ printNat n := by
  intro hmem
  rw [isdigit_of_mem_printNat b hmem] at hb
  cases hb

/-- Digits are no line feeds. -/
theorem lf_not_mem_printNat (n : Nat) : lf ∉ printNat n := not_mem_printNat (by decide) n

theorem printNat_ne_nil (n : Nat) : printNat n ≠ [] := by
  rw [printNat]
  split
  · exact List.cons_ne_nil _ _
  · rename_i hn
    simpa [Nat.digits_eq_nil_iff_eq_zero] using hn

/-- The digits of a number, read back. -/
theorem decimal_reverse {ds : List Nat} (hds : ∀ d ∈ ds, d < 10) :
    decimal (ds.map fun d => UInt8.ofNat (48 + d)).reverse = Nat.ofDigits 10 ds := by
  induction ds with
  | nil => rfl
  | cons d ds ih =>
      have hlt := hds d List.mem_cons_self
      have hrest := ih fun x hx => hds x (List.mem_cons_of_mem d hx)
      rw [decimal] at hrest ⊢
      rw [List.map_cons, List.reverse_cons, List.foldl_append, hrest, List.foldl_cons,
        List.foldl_nil, toNat_ofNat_digit hlt, Nat.ofDigits_cons, Nat.add_sub_cancel_left,
        Nat.add_comm]

/-- A printed number denotes itself. -/
@[simp] theorem decimal_printNat (n : Nat) : decimal (printNat n) = n := by
  rw [printNat]
  split
  · rename_i hn
    rw [hn]
    rfl
  · rw [decimal_reverse fun d hd => Nat.digits_lt_base (by decide) hd, Nat.ofDigits_digits]

/-- A scan that starts at digits ends at the first byte that is none. -/
theorem scanNumber_digits {ds : Bytes} (hne : ds ≠ []) (hds : ∀ b ∈ ds, isdigit b = true)
    {rest : Bytes} (hrest : ∀ b ∈ rest.head?, isdigit b = false) :
    scanNumber (ds ++ rest) = (false, ds) := by
  have hrun : (ds ++ rest).takeWhile isdigit = ds := by
    rw [List.takeWhile_append_of_pos hds]
    cases rest with
    | nil => simp
    | cons b rest => simp [hrest b rfl]
  cases ds with
  | nil => exact absurd rfl hne
  | cons b t =>
      have hb := hds b List.mem_cons_self
      have hminus : b ≠ 45 := fun he => by subst he; revert hb; decide
      have hplus : b ≠ 43 := fun he => by subst he; revert hb; decide
      rw [List.cons_append] at hrun ⊢
      rw [scanNumber, List.dropWhile_cons_of_neg (by simp [not_isspace_of_isdigit hb])]
      simp only [if_neg hminus, if_neg hplus, hrun]

/-- `stoull` reads digits that denote a number below `2 ^ 64` as that number, and
ignores what follows them. -/
theorem stoull_digits {ds : Bytes} (hne : ds ≠ []) (hds : ∀ b ∈ ds, isdigit b = true)
    (hlt : decimal ds < 2 ^ 64) {rest : Bytes} (hrest : ∀ b ∈ rest.head?, isdigit b = false) :
    stoull (ds ++ rest) = .ok (decimal ds) := by
  rw [stoull, scanNumber_digits hne hds hrest]
  cases ds with
  | nil => exact absurd rfl hne
  | cons b t => simp only [if_neg (Nat.not_le.mpr hlt), Bool.false_eq_true, if_false]

example : stoull (ascii "  -1x") = .ok (2 ^ 64 - 1) := by decide

end Cpp
