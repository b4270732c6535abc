import Fion.Text.Find
import Fion.Text.Lines

/-!
# Blocks of lines

Text whose lines end in two elements `c` and `d`, the second of which stands in no
line.  A block is its lines with a line end between each two, `[c, d].intercalate ls`.
Behind a block and its last line end comes the empty line, and the search for two
line ends in a row finds it there as long as no line but the first is empty
(`find_emptyLine`).

Reading the block line by line at `d` alone gives its lines back, each but the last
with a `c` behind it.
-/

namespace Text

variable {α : Type*} {c d : α}

/-! ## The text of a block -/

/-- Lines with a line end behind each are a block and one more line end. -/
theorem flatMap_line_end (l : List α) (ls : List (List α)) :
    (l :: ls).flatMap (· ++ [c, d]) = [c, d].intercalate (l :: ls) ++ [c, d] := by
  induction ls generalizing l with
  | nil => simp
  | cons m ls ih =>
      rw [List.flatMap_cons, ih, List.intercalate_cons_cons, List.append_assoc, List.append_assoc,
        List.append_assoc]

/-- A block begins with its first line, and a line end follows. -/
theorem exists_block_eq (l : List α) (ls : List (List α)) (rest : List α) :
    ∃ t, [c, d].intercalate (l :: ls) ++ c :: rest = l ++ c :: t := by
  cases ls with
  | nil => exact ⟨rest, by rw [List.intercalate_singleton]⟩
  | cons m ls =>
      exact ⟨d :: ([c, d].intercalate (m :: ls) ++ c :: rest), by
        simp [List.intercalate_cons_cons]⟩

/-- A line that is not empty does not begin with a line end. -/
theorem not_line_end_prefix (hcd : c ≠ d) {l : List α} (hne : l ≠ []) (hl : d ∉ l)
    (rest : List α) : ¬ [c, d] <+: l ++ c :: rest := by
  intro h
  obtain ⟨t, ht⟩ := h
  cases l with
  | nil => exact hne rfl
  | cons a l =>
      cases l with
      | nil =>
          have hsnd : d = c := List.head_eq_of_cons_eq (List.tail_eq_of_cons_eq ht)
          exact hcd hsnd.symm
      | cons b l =>
          have hsnd : d = b := List.head_eq_of_cons_eq (List.tail_eq_of_cons_eq ht)
          exact hl (by simp [hsnd])

/-! ## The empty line -/

variable [DecidableEq α]

/-- In front of a line that is not empty, one more line only shifts the position
of the empty line. -/
theorem find_emptyLine_line (hcd : c ≠ d) {l rest : List α} (hl : d ∉ l)
    (hrest : ¬ [c, d] <+: rest) :
    find [c, d, c, d] (l ++ [c, d] ++ rest) =
      (find [c, d, c, d] rest).map (· + (l ++ [c, d]).length) := by
  refine find_append_of_skip (fun j hj => ?_)
  rw [List.length_append, List.length_cons, List.length_singleton] at hj
  rw [List.append_assoc]
  rcases Nat.lt_trichotomy j l.length with hlt | rfl | hgt
  · exact not_prefix_drop_of_second rfl hl (by simpa using hcd) hlt
  · rw [List.drop_left]
    rintro ⟨t, ht⟩
    have htail : [c, d] ++ ([c, d] ++ t) = [c, d] ++ rest := ht
    exact hrest ⟨t, List.append_cancel_left htail⟩
  · obtain rfl : j = l.length + 1 := by omega
    rw [← List.drop_drop, List.drop_left]
    rintro ⟨t, ht⟩
    exact hcd (List.head_eq_of_cons_eq ht)

/-- The empty line right behind a line. -/
theorem find_emptyLine_end (hcd : c ≠ d) {l : List α} (hl : d ∉ l) (rest : List α) :
    find [c, d, c, d] (l ++ [c, d] ++ [c, d] ++ rest) = some l.length := by
  rw [List.append_assoc, List.append_assoc]
  exact find_append_self_of_skip [c, d, c, d] rest fun _ hj =>
    not_prefix_drop_of_second rfl hl (by simpa using hcd) hj

/-- The empty line behind a block is the first one. -/
theorem find_emptyLine (hcd : c ≠ d) {l : List α} {ls : List (List α)} (hl : d ∉ l)
    (hls : ∀ m ∈ ls, m ≠ [] ∧ d ∉ m) (rest : List α) :
    find [c, d, c, d] ([c, d].intercalate (l :: ls) ++ [c, d] ++ [c, d] ++ rest) =
      some ([c, d].intercalate (l :: ls)).length := by
  induction ls generalizing l with
  | nil =>
      rw [List.intercalate_singleton]
      exact find_emptyLine_end hcd hl rest
  | cons m ls ih =>
      obtain ⟨hm, hls⟩ := List.forall_mem_cons.mp hls
      have hnext : ¬ [c, d] <+: [c, d].intercalate (m :: ls) ++ [c, d] ++ [c, d] ++ rest := by
        obtain ⟨t, ht⟩ := exists_block_eq (c := c) (d := d) m ls (d :: ([c, d] ++ rest))
        rw [List.append_assoc, List.append_assoc, List.cons_append, List.cons_append,
          List.nil_append, ht]
        exact not_line_end_prefix hcd hm.1 hm.2 t
      have hfind := find_emptyLine_line hcd hl hnext
      rw [ih hm.2 hls, Option.map_some] at hfind
      rw [List.intercalate_cons_cons]
      simp only [List.append_assoc] at hfind ⊢
      rw [hfind]
      simp only [List.length_append, Option.some.injEq]
      omega

/-! ## Reading a block -/

/-- The first line of a longer block is read with a `c` behind it. -/
theorem lines_block_cons (hcd : c ≠ d) {l : List α} (hl : d ∉ l) (m : List α)
    (ls : List (List α)) :
    lines d ([c, d].intercalate (l :: m :: ls)) =
      (l ++ [c]) :: lines d ([c, d].intercalate (m :: ls)) := by
  have hline : d ∉ l ++ [c] := by
    rw [List.mem_append, List.mem_singleton, not_or]
    exact ⟨hl, hcd.symm⟩
  rw [← lines_append_sep hline, List.intercalate_cons_cons]
  simp

end Text
