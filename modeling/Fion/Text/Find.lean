import Mathlib.Data.List.Infix
import Mathlib.Data.List.TakeWhile

/-!
# First occurrences in a list

`find pat s` is the first position at which the list `pat` occurs in `s`, the
search that string libraries call `find`.  Everything here follows from two
characterizations, `find_eq_some_iff` and `find_eq_none_iff`, which speak of
occurrences `pat <+: s.drop i` only.

Three kinds of results are built on them.

* *Extension.*  A first occurrence inside `s` stays the first one when `s` is
  continued (`find_append_of_some`), and one that fits into a prefix is already
  the first one of that prefix (`find_of_append`).
* *Skipping.*  A part in which no occurrence starts only shifts the result
  (`find_append_of_skip`).
* *Separators.*  The first occurrence of a single element splits a list in the
  same way as `takeWhile` does (`take_of_find_singleton`).
-/

namespace Text

section Occurrences

variable {α : Type*}

/-- An occurrence fits into the list. -/
theorem length_le_of_prefix_drop {pat s : List α} {i : Nat} (hp : pat ≠ [])
    (h : pat <+: s.drop i) : i + pat.length ≤ s.length := by
  have hle := h.length_le
  have hpos := List.length_pos_iff.mpr hp
  rw [List.length_drop] at hle
  omega

/-- Whether a list occurs at a position is decided by the part up to the end of
the occurrence. -/
theorem prefix_drop_append_iff {pat s t : List α} {i : Nat} (h : i + pat.length ≤ s.length) :
    pat <+: (s ++ t).drop i ↔ pat <+: s.drop i := by
  rw [List.drop_append_of_le_length (by omega)]
  constructor
  · intro hp
    refine List.prefix_of_prefix_length_le hp (List.prefix_append _ _) ?_
    rw [List.length_drop]
    omega
  · exact fun hp => hp.trans (List.prefix_append _ _)

/-- A pattern does not start in a part without its first element. -/
theorem not_prefix_drop_of_first {pat a b : List α} {c : α} (hpat : pat.head? = some c)
    (ha : c ∉ a) {j : Nat} (hj : j < a.length) : ¬ pat <+: (a ++ b).drop j := by
  rintro ⟨t, ht⟩
  have hget : (a ++ b)[j]? = some c := by
    rw [← List.head?_drop, ← ht, List.head?_append, hpat]
    rfl
  rw [List.getElem?_append_left hj] at hget
  exact ha (List.mem_of_getElem? hget)

/-- A pattern does not start in a part that its second element occurs neither in
nor right behind. -/
theorem not_prefix_drop_of_second {pat a b : List α} {d : α} (hpat : pat[1]? = some d)
    (ha : d ∉ a) (hb : b.head? ≠ some d) {j : Nat} (hj : j < a.length) :
    ¬ pat <+: (a ++ b).drop j := by
  rintro ⟨t, ht⟩
  have hget : (a ++ b)[j + 1]? = some d := by
    rw [← List.getElem?_drop, ← ht, List.getElem?_append_left, hpat]
    exact (List.getElem?_eq_some_iff.mp hpat).1
  by_cases hlast : j + 1 < a.length
  · rw [List.getElem?_append_left hlast] at hget
    exact ha (List.mem_of_getElem? hget)
  · have hj' : j + 1 = a.length := by omega
    rw [hj', List.getElem?_append_right (le_refl _), Nat.sub_self, ← List.head?_eq_getElem?]
      at hget
    exact hb hget

end Occurrences

variable {α : Type*} [DecidableEq α]

/-- The first position at which `pat` occurs in a list. -/
def find (pat : List α) : List α → Option Nat
  | [] => if pat = [] then some 0 else none
  | a :: s => if pat <+: a :: s then some 0 else (find pat s).map (· + 1)

/-- The first position from `pos` on at which `pat` occurs in `s`. -/
def findFrom (pat s : List α) (pos : Nat) : Option Nat :=
  if pos ≤ s.length then (find pat (s.drop pos)).map (· + pos) else none

@[simp] theorem findFrom_zero (pat s : List α) : findFrom pat s 0 = find pat s := by
  simp [findFrom]

/-- The last position of the element `a`. -/
def rfind (a : α) : List α → Option Nat
  | [] => none
  | b :: s =>
      match rfind a s with
      | some i => some (i + 1)
      | none => if b = a then some 0 else none

/-! ## Characterizations -/

/-- A list occurs somewhere exactly when the search finds a position, and the
position is the first one. -/
theorem find_eq_some_iff {pat s : List α} {i : Nat} :
    find pat s = some i ↔ pat <+: s.drop i ∧ ∀ j < i, ¬ pat <+: s.drop j := by
  induction s generalizing i with
  | nil =>
      by_cases hp : pat = []
      · subst hp
        cases i with
        | zero => simp [find]
        | succ i =>
            simp only [find, if_true, Option.some.injEq, List.drop_nil, List.nil_prefix, true_and,
              not_true_eq_false]
            exact ⟨fun h => by omega, fun h => absurd (h 0 (by omega)) id⟩
      · simp [find, hp]
  | cons a s ih =>
      by_cases hp : pat <+: a :: s
      · rw [find, if_pos hp, Option.some.injEq]
        constructor
        · rintro rfl
          exact ⟨hp, fun j hj => absurd hj (by omega)⟩
        · rintro ⟨-, hfirst⟩
          by_contra hi
          exact hfirst 0 (by omega) hp
      · rw [find, if_neg hp]
        cases i with
        | zero =>
            constructor
            · intro h
              obtain ⟨j, -, hj⟩ := Option.map_eq_some_iff.mp h
              omega
            · exact fun h => absurd h.1 hp
        | succ i =>
            simp only [Option.map_eq_some_iff, Nat.add_right_cancel_iff, exists_eq_right,
              List.drop_succ_cons]
            rw [ih]
            constructor
            · rintro ⟨hi, hfirst⟩
              refine ⟨hi, fun j hj => ?_⟩
              cases j with
              | zero => exact hp
              | succ j => exact hfirst j (by omega)
            · rintro ⟨hi, hfirst⟩
              exact ⟨hi, fun j hj => hfirst (j + 1) (by omega)⟩

/-- The search fails exactly when the list occurs nowhere. -/
theorem find_eq_none_iff {pat s : List α} :
    find pat s = none ↔ ∀ i, ¬ pat <+: s.drop i := by
  induction s with
  | nil => simp [find]
  | cons a s ih =>
      by_cases hp : pat <+: a :: s
      · simp only [find, if_pos hp, reduceCtorEq, false_iff, not_forall, not_not]
        exact ⟨0, hp⟩
      · rw [find, if_neg hp, Option.map_eq_none_iff, ih]
        constructor
        · intro h i
          cases i with
          | zero => exact hp
          | succ i => exact h i
        · exact fun h i => h (i + 1)

/-- What is found fits into the list. -/
theorem find_le {pat s : List α} {i : Nat} (hp : pat ≠ []) (h : find pat s = some i) :
    i + pat.length ≤ s.length :=
  length_le_of_prefix_drop hp (find_eq_some_iff.mp h).1

/-- The list splits around the occurrence that was found. -/
theorem eq_append_of_find {pat s : List α} {i : Nat} (h : find pat s = some i) :
    s = s.take i ++ pat ++ s.drop (i + pat.length) := by
  obtain ⟨t, ht⟩ := (find_eq_some_iff.mp h).1
  have hdrop : s.drop (i + pat.length) = t := by
    rw [← List.drop_drop, ← ht, List.drop_left]
  rw [hdrop, List.append_assoc, ht, List.take_append_drop]

/-- A search from a position finds nothing before it, and an occurrence inside
the list. -/
theorem findFrom_bounds {pat s : List α} {pos i : Nat} (hp : pat ≠ [])
    (h : findFrom pat s pos = some i) : pos ≤ i ∧ i + pat.length ≤ s.length := by
  rw [findFrom] at h
  split_ifs at h with hpos
  obtain ⟨j, hj, rfl⟩ := Option.map_eq_some_iff.mp h
  have hle := find_le hp hj
  rw [List.length_drop] at hle
  omega

/-- A shorter pattern is found no later. -/
theorem exists_find_of_prefix {pat pat' s : List α} (hpat : pat' <+: pat) {i : Nat}
    (h : find pat s = some i) : ∃ j, j ≤ i ∧ find pat' s = some j := by
  have hocc := hpat.trans (find_eq_some_iff.mp h).1
  cases hfind : find pat' s with
  | none => exact absurd hocc (find_eq_none_iff.mp hfind i)
  | some j =>
      refine ⟨j, ?_, rfl⟩
      by_contra hlt
      exact (find_eq_some_iff.mp hfind).2 i (Nat.lt_of_not_le hlt) hocc

/-! ## Extension -/

/-- A first occurrence stays the first one when the list is continued. -/
theorem find_append_of_some {pat s : List α} {i : Nat} (hp : pat ≠ []) (h : find pat s = some i)
    (t : List α) : find pat (s ++ t) = some i := by
  have hle := find_le hp h
  obtain ⟨hi, hfirst⟩ := find_eq_some_iff.mp h
  refine find_eq_some_iff.mpr ⟨(prefix_drop_append_iff hle).mpr hi, fun j hj hocc => ?_⟩
  exact hfirst j hj ((prefix_drop_append_iff (by omega)).mp hocc)

/-- A first occurrence that fits into a prefix is the first one of the prefix. -/
theorem find_of_append {pat s t : List α} {i : Nat} (h : find pat (s ++ t) = some i)
    (hle : i + pat.length ≤ s.length) : find pat s = some i := by
  obtain ⟨hi, hfirst⟩ := find_eq_some_iff.mp h
  refine find_eq_some_iff.mpr ⟨(prefix_drop_append_iff hle).mp hi, fun j hj hocc => ?_⟩
  exact hfirst j hj ((prefix_drop_append_iff (by omega)).mpr hocc)

/-- What is found in a prefix is found at the same place in the whole list. -/
theorem find_mono {pat s u : List α} {i : Nat} (hp : pat ≠ []) (hs : s <+: u)
    (h : find pat s = some i) : find pat u = some i := by
  obtain ⟨t, rfl⟩ := hs
  exact find_append_of_some hp h t

/-! ## Skipping -/

/-- A part in which no occurrence starts only shifts the result. -/
theorem find_append_of_skip {pat a b : List α}
    (h : ∀ j < a.length, ¬ pat <+: (a ++ b).drop j) :
    find pat (a ++ b) = (find pat b).map (· + a.length) := by
  induction a with
  | nil => simp
  | cons x a ih =>
      have hhead : ¬ pat <+: x :: (a ++ b) := h 0 (by simp)
      have htail : ∀ j < a.length, ¬ pat <+: (a ++ b).drop j :=
        fun j hj => h (j + 1) (by simpa using hj)
      rw [List.cons_append, find, if_neg hhead, ih htail, Option.map_map]
      congr 1

/-- An occurrence right after such a part is the first one. -/
theorem find_append_self_of_skip (pat : List α) {a : List α} (b : List α)
    (h : ∀ j < a.length, ¬ pat <+: (a ++ (pat ++ b)).drop j) :
    find pat (a ++ (pat ++ b)) = some a.length := by
  refine find_eq_some_iff.mpr ⟨?_, h⟩
  rw [List.drop_left]
  exact List.prefix_append _ _

/-- A two-element pattern is first found behind a part without its second
element. -/
theorem find_pair {c d : α} (hcd : c ≠ d) {a : List α} (ha : d ∉ a) (b : List α) :
    find [c, d] (a ++ c :: d :: b) = some a.length :=
  find_append_self_of_skip [c, d] b fun _ hj =>
    not_prefix_drop_of_second rfl ha (by simpa using hcd) hj

/-! ## Separators -/

/-- Cutting at the first occurrence of an element is `takeWhile`. -/
theorem take_of_find_singleton {c : α} {s : List α} {i : Nat} (h : find [c] s = some i) :
    s.take i = s.takeWhile (· ≠ c) ∧ s.drop (i + 1) = (s.dropWhile (· ≠ c)).tail := by
  induction s generalizing i with
  | nil => simp [find] at h
  | cons a s ih =>
      by_cases hc : a = c
      · subst hc
        rw [find, if_pos (by simp)] at h
        obtain rfl := Option.some.inj h
        simp
      · rw [find, if_neg (by simpa using Ne.symm hc), Option.map_eq_some_iff] at h
        obtain ⟨j, hj, rfl⟩ := h
        obtain ⟨htake, hdrop⟩ := ih hj
        simp [hc, htake, hdrop]

/-- The element is absent when the search for it fails. -/
theorem find_singleton_eq_none_iff {c : α} {s : List α} : find [c] s = none ↔ c ∉ s := by
  induction s with
  | nil => simp [find]
  | cons a s ih =>
      by_cases hc : c = a
      · simp [find, hc]
      · simp [find, hc, ih]

end Text
