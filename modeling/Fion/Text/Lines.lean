import Mathlib.Data.List.TakeWhile

/-!
# Lines

`getline d s` takes one line off the front of `s`: the elements before the next
delimiter `d`, which is dropped.  It fails on an empty list only, so a last line
without a delimiter is returned and an empty rest after a final delimiter is
not.  `lines d s` are the lines that calling `getline` until it fails returns
(`lines_eq_getline`).
-/

namespace Text

variable {α : Type*} [DecidableEq α]

/-- One line and the rest behind its delimiter. -/
def getline (d : α) (s : List α) : Option (List α × List α) :=
  if s = [] then none else some (s.takeWhile (· ≠ d), (s.dropWhile (· ≠ d)).tail)

/-- All lines of a list, in order. -/
def lines (d : α) : List α → List (List α)
  | [] => []
  | a :: s =>
      if a = d then [] :: lines d s
      else
        match lines d s with
        | [] => [[a]]
        | l :: ls => (a :: l) :: ls

@[simp] theorem lines_nil (d : α) : lines d [] = [] := rfl

@[simp] theorem lines_cons_self (d : α) (s : List α) : lines d (d :: s) = [] :: lines d s := by
  simp [lines]

/-- An element that is no delimiter begins the first line. -/
theorem lines_cons_of_ne {d a : α} (ha : a ≠ d) {s l : List α} {ls : List (List α)}
    (hs : lines d s = l :: ls) : lines d (a :: s) = (a :: l) :: ls := by
  rw [lines, if_neg ha, hs]

/-- The lines are what successive `getline` calls return. -/
theorem lines_eq_getline (d : α) (s : List α) :
    lines d s =
      match getline d s with
      | none => []
      | some (l, rest) => l :: lines d rest := by
  induction s with
  | nil => rfl
  | cons a s ih =>
      by_cases ha : a = d
      · subst ha
        simp [getline]
      · rw [lines, if_neg ha, ih]
        cases s with
        | nil => simp [getline, ha]
        | cons b s => simp [getline, ha]

/-- The first line ends at the first delimiter. -/
theorem lines_append_sep {d : α} {l : List α} (hl : d ∉ l) (s : List α) :
    lines d (l ++ d :: s) = l :: lines d s := by
  induction l with
  | nil => simp
  | cons a l ih =>
      have ha : a ≠ d := fun h => hl (by simp [h])
      rw [List.cons_append, lines, if_neg ha, ih (fun h => hl (List.mem_cons_of_mem _ h))]

/-- A last line needs no delimiter. -/
theorem lines_of_not_mem {d : α} {l : List α} (hne : l ≠ []) (hl : d ∉ l) : lines d l = [l] := by
  induction l with
  | nil => exact absurd rfl hne
  | cons a l ih =>
      have ha : a ≠ d := fun h => hl (by simp [h])
      cases l with
      | nil => simp [lines, ha]
      | cons b l =>
          have hrest := ih (List.cons_ne_nil b l) (fun h => hl (List.mem_cons_of_mem _ h))
          rw [lines, if_neg ha, hrest]

/-- A list has a line exactly when it is not empty. -/
theorem lines_eq_nil_iff {d : α} {s : List α} : lines d s = [] ↔ s = [] := by
  rw [lines_eq_getline]
  cases s with
  | nil => simp [getline]
  | cons a s => simp [getline]

/-- The part of a list up to a delimiter has its own lines. -/
theorem lines_append {d : α} {a : List α} (h : ∀ b ∈ a.getLast?, b = d) (s : List α) :
    lines d (a ++ s) = lines d a ++ lines d s := by
  induction a with
  | nil => rfl
  | cons b a ih =>
      cases a with
      | nil =>
          obtain rfl := h b rfl
          simp
      | cons c a =>
          have hrest := ih (by simpa using h)
          have hne : lines d (c :: a) ≠ [] := fun hnil => by cases lines_eq_nil_iff.mp hnil
          by_cases hb : b = d
          · subst hb
            rw [List.cons_append, lines_cons_self, lines_cons_self, hrest, List.cons_append]
          · cases hlines : lines d (c :: a) with
            | nil => exact absurd hlines hne
            | cons l ls =>
                rw [hlines] at hrest
                rw [List.cons_append, lines_cons_of_ne hb hrest, lines_cons_of_ne hb hlines]
                rfl

/-- No line contains the delimiter. -/
theorem not_mem_of_mem_lines {d : α} {s l : List α} (h : l ∈ lines d s) : d ∉ l := by
  induction s generalizing l with
  | nil => cases h
  | cons a s ih =>
      rw [lines] at h
      split_ifs at h with ha
      · cases h with
        | head => exact List.not_mem_nil
        | tail _ hl => exact ih hl
      · cases hs : lines d s with
        | nil =>
            rw [hs] at h
            obtain rfl := List.mem_singleton.mp h
            simpa using Ne.symm ha
        | cons first rest =>
            rw [hs] at h ih
            cases h with
            | head =>
                rw [List.mem_cons, not_or]
                exact ⟨Ne.symm ha, ih List.mem_cons_self⟩
            | tail _ hl => exact ih (List.mem_cons_of_mem first hl)

/-- A line is a part of the list. -/
theorem infix_of_mem_lines {d : α} {s l : List α} (h : l ∈ lines d s) : l <:+: s := by
  induction s generalizing l with
  | nil => cases h
  | cons a s ih =>
      rw [lines_eq_getline, getline, if_neg (List.cons_ne_nil a s)] at h
      rcases List.mem_cons.mp h with rfl | hrest
      · exact (List.takeWhile_prefix _).isInfix
      · by_cases ha : a = d
        · subst ha
          have hs : l ∈ lines a s := by simpa using hrest
          exact (ih hs).trans (List.suffix_cons a s).isInfix
        · have hdrop : (a :: s).dropWhile (· ≠ d) = s.dropWhile (· ≠ d) := by simp [ha]
          rw [hdrop] at hrest
          cases hcut : s with
          | nil => rw [hcut] at hrest; cases hrest
          | cons b t =>
              have hmem : l ∈ lines d s := by
                rw [lines_eq_getline, getline, if_neg (by simp [hcut])]
                exact List.mem_cons_of_mem _ hrest
              rw [← hcut]
              exact (ih hmem).trans (List.suffix_cons a s).isInfix

/-- What stands in front of the first delimiter is a line. -/
theorem takeWhile_mem_lines {d : α} {s : List α} (hs : s ≠ []) :
    s.takeWhile (· ≠ d) ∈ lines d s := by
  rw [lines_eq_getline, getline, if_neg hs]
  exact List.mem_cons_self

end Text
