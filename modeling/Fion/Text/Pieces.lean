import Fion.Text.Lines
import Fion.Text.Cut

/-!
# Pieces between separators

The pieces of a list are its maximal non-empty parts without the separator `c`, in
order.  `Pieces` says so: a list is gaps of separators and pieces in turn, and what
follows a piece is empty or begins with a separator.  `pieces` computes them, as the
lines that are not empty (`pieces_iff`).

The pieces of `a ++ b` are those of `a` and then those of `b`, unless the last piece
of `a` and the first one of `b` grow together (`Joined`), and then there is one piece
less (`pieces_append`, `length_pieces_append`).
-/

namespace Text

variable {α : Type*}

/-- The maximal non-empty parts of a list without `c`, in order. -/
inductive Pieces (c : α) : List α → List (List α) → Prop where
  | nil {gap : List α} : (∀ b ∈ gap, b = c) → Pieces c gap []
  | cons {gap piece rest : List α} {ps : List (List α)} :
      (∀ b ∈ gap, b = c) → piece ≠ [] → c ∉ piece → (∀ b ∈ rest.head?, b = c) →
      Pieces c rest ps → Pieces c (gap ++ (piece ++ rest)) (piece :: ps)

/-- Two lists that grow together when they are put behind each other. -/
def Joined (c : α) (a b : List α) : Prop :=
  (∃ x ∈ a.getLast?, x ≠ c) ∧ ∃ y ∈ b.head?, y ≠ c

variable [DecidableEq α]

/-- The pieces of a list: its lines that are not empty. -/
def pieces (c : α) (s : List α) : List (List α) := (lines c s).filter (· ≠ [])

@[simp] theorem pieces_nil (c : α) : pieces c [] = [] := rfl

@[simp] theorem pieces_cons_self (c : α) (s : List α) : pieces c (c :: s) = pieces c s := by
  simp [pieces]

/-- An element in front of a gap is a piece of its own. -/
theorem pieces_cons_gap {c x : α} (hx : x ≠ c) {s : List α} (hs : ∀ b ∈ s.head?, b = c) :
    pieces c (x :: s) = [x] :: pieces c s := by
  cases s with
  | nil => simp [pieces, lines, hx]
  | cons b s =>
      obtain rfl := hs b rfl
      rw [pieces, lines_cons_of_ne hx (lines_cons_self b s), pieces_cons_self]
      simp [pieces]

/-- An element in front of a piece begins it. -/
theorem pieces_cons_piece {c x y : α} (hx : x ≠ c) (hy : y ≠ c) (s : List α) :
    ∃ piece ps, pieces c (y :: s) = piece :: ps ∧
      pieces c (x :: y :: s) = (x :: piece) :: ps := by
  have hlines : ∃ l ls, l ≠ [] ∧ lines c (y :: s) = l :: ls := by
    refine ⟨(y :: s).takeWhile (· ≠ c), lines c ((y :: s).dropWhile (· ≠ c)).tail, ?_, ?_⟩
    · simp [hy]
    · rw [lines_eq_getline, getline, if_neg (List.cons_ne_nil y s)]
  obtain ⟨l, ls, hl, hlines⟩ := hlines
  refine ⟨l, ls.filter (· ≠ []), ?_, ?_⟩
  · simp [pieces, hlines, hl]
  · simp [pieces, lines_cons_of_ne hx hlines]

/-- A piece and what follows it. -/
theorem pieces_append_gap {c : α} {piece rest : List α} (hne : piece ≠ []) (hpiece : c ∉ piece)
    (hrest : ∀ b ∈ rest.head?, b = c) : pieces c (piece ++ rest) = piece :: pieces c rest := by
  induction piece with
  | nil => exact absurd rfl hne
  | cons x piece ih =>
      rw [List.mem_cons, not_or] at hpiece
      cases piece with
      | nil => exact pieces_cons_gap (Ne.symm hpiece.1) hrest
      | cons y piece =>
          have hy : y ≠ c := fun h => hpiece.2 (h ▸ List.mem_cons_self)
          obtain ⟨p, ps, hold, hnew⟩ :=
            pieces_cons_piece (Ne.symm hpiece.1) hy (piece ++ rest)
          have htail := ih (List.cons_ne_nil y piece) hpiece.2
          rw [List.cons_append, hold] at htail
          obtain ⟨rfl, rfl⟩ := List.cons.inj htail
          exact hnew

/-- A list without `c` is one piece, if it is anything. -/
theorem pieces_of_not_mem {c : α} {a : List α} (ha : c ∉ a) :
    pieces c a = if a = [] then [] else [a] := by
  split_ifs with hne
  · rw [hne, pieces_nil]
  · have happend : pieces c (a ++ []) = a :: pieces c [] := pieces_append_gap hne ha (by simp)
    rwa [List.append_nil, pieces_nil] at happend

/-- What stands in front of the first `c` is a piece, if it is anything. -/
theorem pieces_append_sep {c : α} {a : List α} (ha : c ∉ a) (b : List α) :
    pieces c (a ++ c :: b) = (if a = [] then [] else [a]) ++ pieces c b := by
  split_ifs with hne
  · rw [hne, List.nil_append, pieces_cons_self, List.nil_append]
  · rw [pieces_append_gap hne ha (by simp), pieces_cons_self, List.singleton_append]

theorem pieces_gap {c : α} {gap : List α} (hgap : ∀ b ∈ gap, b = c) (s : List α) :
    pieces c (gap ++ s) = pieces c s := by
  induction gap with
  | nil => rfl
  | cons b gap ih =>
      obtain rfl := hgap b List.mem_cons_self
      rw [List.cons_append, pieces_cons_self, ih fun x hx => hgap x (List.mem_cons_of_mem b hx)]

/-- A list has one list of pieces, the computed one. -/
theorem pieces_iff {c : α} {s : List α} {ps : List (List α)} :
    Pieces c s ps ↔ ps = pieces c s := by
  constructor
  · intro h
    induction h with
    | nil hgap =>
        have hall := pieces_gap hgap []
        rw [List.append_nil] at hall
        rw [hall, pieces_nil]
    | cons hgap hne hpiece hrest _ ih =>
        rw [pieces_gap hgap, pieces_append_gap hne hpiece hrest, ih]
  · rintro rfl
    -- peel a gap and a piece off the front
    induction hn : s.length using Nat.strongRecOn generalizing s with
    | ind n ih =>
        subst hn
        obtain ⟨gap, rest, rfl, hgap, hrest⟩ : ∃ gap rest, s = gap ++ rest ∧
            (∀ b ∈ gap, b = c) ∧ ∀ b ∈ rest.head?, b ≠ c := by
          refine ⟨s.takeWhile (· = c), s.dropWhile (· = c),
            List.takeWhile_append_dropWhile.symm, fun b hb => ?_, fun b hb => ?_⟩
          · simpa using List.mem_takeWhile_imp hb
          · have hhead := List.head?_dropWhile_not (· = c) s
            rw [Option.mem_def.mp hb] at hhead
            simpa using hhead
        cases rest with
        | nil =>
            have hall := pieces_gap hgap []
            rw [hall, pieces_nil, List.append_nil]
            exact .nil hgap
        | cons x rest =>
            have hx : x ≠ c := hrest x rfl
            have hsplit : x :: rest = before c (x :: rest) ++ (x :: rest).dropWhile (· ≠ c) :=
              List.takeWhile_append_dropWhile.symm
            have hne : before c (x :: rest) ≠ [] := by simp [before, hx]
            have htail : ∀ b ∈ ((x :: rest).dropWhile (· ≠ c)).head?, b = c := by
              intro b hb
              have hhead := List.head?_dropWhile_not (· ≠ c) (x :: rest)
              rw [Option.mem_def.mp hb] at hhead
              simpa using hhead
            have hpieces : pieces c (gap ++ x :: rest) =
                before c (x :: rest) :: pieces c ((x :: rest).dropWhile (· ≠ c)) := by
              rw [pieces_gap hgap]
              conv_lhs => rw [hsplit]
              exact pieces_append_gap hne (not_mem_before _ _) htail
            have hshort : ((x :: rest).dropWhile (· ≠ c)).length < (gap ++ x :: rest).length := by
              have hlen := congrArg List.length hsplit
              have hpos := List.length_pos_iff.mpr hne
              rw [List.length_append] at hlen ⊢
              omega
            rw [hpieces]
            conv => arg 2; rw [hsplit]
            exact .cons hgap hne (not_mem_before _ _) htail (ih _ hshort rfl)

/-! ## Concatenation -/

/-- Lists that do not grow together have their own pieces. -/
theorem pieces_append {c : α} {a b : List α} (h : ¬ Joined c a b) :
    pieces c (a ++ b) = pieces c a ++ pieces c b := by
  induction a with
  | nil => rfl
  | cons x a ih =>
      cases a with
      | nil =>
          by_cases hx : x = c
          · subst hx
            simp
          · have hb : ∀ y ∈ b.head?, y = c := by
              intro y hy
              by_contra hyc
              exact h ⟨⟨x, rfl, hx⟩, y, hy, hyc⟩
            rw [List.singleton_append, pieces_cons_gap hx hb, pieces_cons_gap hx (by simp)]
            rfl
      | cons y a =>
          have hrest := ih h
          by_cases hx : x = c
          · subst hx
            rw [List.cons_append, pieces_cons_self, pieces_cons_self, hrest]
          · by_cases hy : y = c
            · subst hy
              rw [List.cons_append, pieces_cons_gap hx (by simp), hrest,
                pieces_cons_gap hx (by simp), List.cons_append]
            · obtain ⟨p, ps, hold, hnew⟩ := pieces_cons_piece hx hy a
              obtain ⟨q, qs, hold', hnew'⟩ := pieces_cons_piece hx hy (a ++ b)
              rw [List.cons_append, hold, hold'] at hrest
              obtain ⟨rfl, rfl⟩ := List.cons.inj hrest
              rw [hnew]
              exact hnew'

/-- Lists that grow together have one piece less. -/
theorem length_pieces_append {c : α} {a b : List α} (h : Joined c a b) :
    (pieces c (a ++ b)).length + 1 = (pieces c a).length + (pieces c b).length := by
  obtain ⟨⟨z, hz, hzc⟩, y, hy, hyc⟩ := h
  obtain ⟨b, rfl⟩ : ∃ t, b = y :: t := ⟨b.tail, List.eq_cons_of_mem_head? hy⟩
  induction a with
  | nil => cases hz
  | cons x a ih =>
      cases a with
      | nil =>
          obtain rfl : x = z := Option.some.inj hz
          obtain ⟨p, ps, hold, hnew⟩ := pieces_cons_piece hzc hyc b
          rw [List.singleton_append, hnew, hold, pieces_cons_gap hzc (by simp)]
          simp [Nat.add_comm]
      | cons w a =>
          have hrest := ih hz
          by_cases hx : x = c
          · subst hx
            rw [List.cons_append, pieces_cons_self, pieces_cons_self, hrest]
          · by_cases hw : w = c
            · subst hw
              rw [List.cons_append, List.cons_append, pieces_cons_gap hx (by simp),
                pieces_cons_gap hx (by simp), List.length_cons, List.length_cons]
              rw [List.cons_append] at hrest
              omega
            · obtain ⟨p, ps, hold, hnew⟩ := pieces_cons_piece hx hw a
              obtain ⟨q, qs, hold', hnew'⟩ := pieces_cons_piece hx hw (a ++ y :: b)
              rw [List.cons_append, hold, hold'] at hrest
              rw [List.cons_append, List.cons_append, hnew', hnew]
              exact hrest

/-- A `c` between two lists keeps their pieces apart. -/
theorem pieces_append_cons (c : α) (a b : List α) :
    pieces c (a ++ c :: b) = pieces c a ++ pieces c b := by
  have hright : ¬ Joined c a [c] := by
    rintro ⟨-, y, hy, hyc⟩
    exact hyc (Option.some.inj hy).symm
  have hleft : ¬ Joined c (a ++ [c]) b := by
    rintro ⟨⟨z, hz, hzc⟩, -⟩
    rw [List.getLast?_concat] at hz
    exact hzc (Option.some.inj hz).symm
  rw [List.append_cons, pieces_append hleft, pieces_append hright, pieces_cons_self, pieces_nil,
    List.append_nil]

/-- The pieces are the parts of a plain split that are not empty. -/
theorem pieces_eq_splitOn (c : α) (s : List α) : pieces c s = (s.splitOn c).filter (· ≠ []) := by
  induction hn : s.length using Nat.strongRecOn generalizing s with
  | ind n ih =>
      subst hn
      by_cases hmem : c ∈ s
      · have hshort : (after c s).length < s.length := by
          have hlen := congrArg List.length (before_append_after hmem)
          rw [List.length_append, List.length_cons] at hlen
          omega
        rw [← before_append_after hmem, pieces_append_sep (not_mem_before c s),
          List.splitOn_append_cons_self_of_not_mem (not_mem_before c s), ih _ hshort _ rfl]
        by_cases hnil : before c s = []
        · simp [hnil]
        · simp [hnil]
      · rw [pieces_of_not_mem hmem, List.splitOn_eq_singleton hmem]
        by_cases hnil : s = []
        · simp [hnil]
        · simp [hnil]

/-- Parts that are put together with a `c` between them are found again. -/
theorem pieces_intercalate {c : α} {ps : List (List α)} (hps : ∀ p ∈ ps, c ∉ p) :
    pieces c ([c].intercalate ps) = ps.filter (· ≠ []) := by
  cases ps with
  | nil => rfl
  | cons p ps => rw [pieces_eq_splitOn, List.splitOn_intercalate c hps (List.cons_ne_nil p ps)]

end Text
