import Fion.Text.Find

/-!
# Cutting at an element

`before c s` and `after c s` are the parts of `s` on the two sides of the first
`c`; without a `c` everything stands before it.  A search that a program does
with positions is the same cut (`findFrom_append`, `take_drop_append`), and one
lemma says what the cut makes of `a ++ c :: b` (`before_append_sep`).

`rfind` cuts at the last element instead, with `rfind_append_sep` as the lemma
for it, and `afterLast c s` is the part behind that cut; without a `c` it is
everything.
-/

namespace Text

variable {α : Type*} [DecidableEq α]

/-- The part of a list in front of the first `c`. -/
def before (c : α) (s : List α) : List α := s.takeWhile (· ≠ c)

/-- The part of a list behind the first `c`. -/
def after (c : α) (s : List α) : List α := (s.dropWhile (· ≠ c)).tail

@[simp] theorem before_nil (c : α) : before c [] = [] := rfl

@[simp] theorem after_nil (c : α) : after c [] = [] := rfl

theorem before_append_sep {c : α} {a : List α} (ha : c ∉ a) (b : List α) :
    before c (a ++ c :: b) = a := by
  have hall : ∀ x ∈ a, decide (x ≠ c) = true := fun x hx => by
    simpa using fun h : x = c => ha (h ▸ hx)
  rw [before, List.takeWhile_append_of_pos hall, List.takeWhile_cons_of_neg (by simp),
    List.append_nil]

theorem after_append_sep {c : α} {a : List α} (ha : c ∉ a) (b : List α) :
    after c (a ++ c :: b) = b := by
  have hall : ∀ x ∈ a, decide (x ≠ c) = true := fun x hx => by
    simpa using fun h : x = c => ha (h ▸ hx)
  rw [after, List.dropWhile_append_of_pos hall, List.dropWhile_cons_of_neg (by simp),
    List.tail_cons]

theorem before_of_not_mem {c : α} {s : List α} (hs : c ∉ s) : before c s = s := by
  rw [before, List.takeWhile_eq_self_iff]
  exact fun x hx => by simpa using fun h : x = c => hs (h ▸ hx)

theorem after_of_not_mem {c : α} {s : List α} (hs : c ∉ s) : after c s = [] := by
  have hall : ∀ x ∈ s, decide (x ≠ c) = true := fun x hx => by
    simpa using fun h : x = c => hs (h ▸ hx)
  rw [after, List.dropWhile_eq_nil_iff.mpr hall, List.tail_nil]

/-- A part without `c` in front of one that is empty or begins with `c`. -/
theorem cut_append_tail {c : α} {a : List α} (ha : c ∉ a) {b : List α}
    (hb : b = [] ∨ b.head? = some c) : before c (a ++ b) = a ∧ after c (a ++ b) = b.tail := by
  cases b with
  | nil => rw [List.append_nil, before_of_not_mem ha, after_of_not_mem ha]; exact ⟨rfl, rfl⟩
  | cons x b =>
      obtain rfl : x = c := by simpa using hb
      exact ⟨before_append_sep ha b, after_append_sep ha b⟩

/-- The two parts and the element between them are the list. -/
theorem before_append_after {c : α} {s : List α} (hs : c ∈ s) :
    before c s ++ c :: after c s = s := by
  induction s with
  | nil => cases hs
  | cons a s ih =>
      by_cases hac : a = c
      · subst hac
        simp [before, after]
      · have hmem : c ∈ s := by simpa [Ne.symm hac] using hs
        have hcons : before c (a :: s) = a :: before c s ∧ after c (a :: s) = after c s := by
          simp [before, after, hac]
        rw [hcons.1, hcons.2, List.cons_append, ih hmem]

theorem not_mem_before (c : α) (s : List α) : c ∉ before c s := fun h => by
  simpa using List.mem_takeWhile_imp h

theorem before_isPrefix (c : α) (s : List α) : before c s <+: s := List.takeWhile_prefix _

theorem after_suffix (c : α) (s : List α) : after c s <:+ s :=
  (List.tail_suffix _).trans (List.dropWhile_suffix _)

/-- A cut at another element keeps the first one. -/
theorem head?_before {c a : α} (hac : a ≠ c) (s : List α) :
    (before c s).head? = some a ↔ s.head? = some a := by
  cases s with
  | nil => simp
  | cons b s =>
      by_cases hbc : b = c
      · subst hbc
        simp [before, Ne.symm hac]
      · simp [before, hbc]

/-! ## Searching is cutting -/

/-- A search for one element that starts behind a prefix. -/
theorem findFrom_append (c : α) (pre s : List α) :
    findFrom [c] (pre ++ s) pre.length = (find [c] s).map (· + pre.length) := by
  rw [findFrom, if_pos (by simp), List.drop_left]

/-- What a search for one element finds, as a cut. -/
theorem find_singleton (c : α) (s : List α) :
    (c ∉ s ∧ find [c] s = none) ∨ (c ∈ s ∧ find [c] s = some (before c s).length) := by
  by_cases hs : c ∈ s
  · refine .inr ⟨hs, ?_⟩
    have hcut := find_append_self_of_skip [c] (a := before c s) (after c s) fun j hj =>
      not_prefix_drop_of_first rfl (not_mem_before c s) hj
    rwa [List.singleton_append, before_append_after hs] at hcut
  · exact .inl ⟨hs, find_singleton_eq_none_iff.mpr hs⟩

/-- The two sides of a first `c` behind a prefix, by position. -/
theorem take_drop_append {c : α} {s : List α} (hs : c ∈ s) (pre : List α) :
    (pre ++ s).take ((before c s).length + pre.length) = pre ++ before c s ∧
      (pre ++ s).drop ((before c s).length + pre.length) = c :: after c s := by
  have hsplit : pre ++ s = (pre ++ before c s) ++ c :: after c s := by
    rw [List.append_assoc, before_append_after hs]
  have hlen : (before c s).length + pre.length = (pre ++ before c s).length := by
    rw [List.length_append, Nat.add_comm]
  rw [hlen, hsplit, List.take_left, List.drop_left]
  exact ⟨rfl, rfl⟩

/-- The part behind a first `c` starts one position further. -/
theorem drop_succ_append {c : α} {s : List α} (hs : c ∈ s) (pre : List α) :
    (pre ++ s).drop ((before c s).length + pre.length + 1) = after c s := by
  rw [← List.drop_drop, (take_drop_append hs pre).2, List.drop_one, List.tail_cons]

/-- The two sides of the first `c`, by position. -/
theorem drop_before {c : α} {s : List α} (hs : c ∈ s) :
    s.take (before c s).length = before c s ∧ s.drop ((before c s).length + 1) = after c s := by
  have hdrop := drop_succ_append hs []
  rw [List.nil_append, List.length_nil, Nat.add_zero] at hdrop
  exact ⟨(List.prefix_iff_eq_take.mp (before_isPrefix c s)).symm, hdrop⟩

/-- The part up to and with the first `c`. -/
theorem take_succ_before {c : α} {s : List α} (hs : c ∈ s) :
    s.take ((before c s).length + 1) = before c s ++ [c] := by
  have hpre : before c s ++ [c] <+: s :=
    ⟨after c s, by rw [List.append_assoc, List.singleton_append, before_append_after hs]⟩
  have htake := List.prefix_iff_eq_take.mp hpre
  rw [List.length_append, List.length_singleton] at htake
  exact htake.symm

theorem length_before_lt {c : α} {s : List α} (hs : c ∈ s) : (before c s).length < s.length := by
  have hlen := congrArg List.length (before_append_after hs)
  rw [List.length_append, List.length_cons] at hlen
  omega

/-! ## Occurrences beside a separator -/

/-- The search fails when the pattern is no part of the list. -/
theorem find_eq_none_iff_not_infix {pat s : List α} : find pat s = none ↔ ¬ pat <:+: s := by
  rw [find_eq_none_iff]
  constructor
  · rintro h ⟨a, b, rfl⟩
    refine h a.length ⟨b, ?_⟩
    rw [List.append_assoc, List.drop_left]
  · rintro h i hocc
    exact h (hocc.isInfix.trans (List.drop_suffix i s).isInfix)

/-- A pattern without `c` does not reach over a `c`. -/
theorem not_infix_append_sep {c : α} {pat a b : List α} (hc : c ∉ pat) (ha : ¬ pat <:+: a)
    (hb : ¬ pat <:+: b) : ¬ pat <:+: a ++ c :: b := by
  rw [← find_eq_none_iff_not_infix] at ha hb ⊢
  refine find_eq_none_iff.mpr fun j hocc => ?_
  by_cases hleft : j + pat.length ≤ a.length
  · exact find_eq_none_iff.mp ha j ((prefix_drop_append_iff hleft).mp hocc)
  · by_cases hright : a.length < j
    · obtain ⟨k, rfl⟩ : ∃ k, j = a.length + (k + 1) := ⟨j - a.length - 1, by omega⟩
      rw [← List.drop_drop, List.drop_left, List.drop_succ_cons] at hocc
      exact find_eq_none_iff.mp hb k hocc
    · obtain ⟨t, ht⟩ := hocc
      have hget : ((a ++ c :: b).drop j)[a.length - j]? = some c := by
        rw [List.getElem?_drop, Nat.add_sub_cancel' (by omega),
          List.getElem?_append_right (le_refl _), Nat.sub_self, List.getElem?_cons_zero]
      rw [← ht, List.getElem?_append_left (by omega)] at hget
      exact hc (List.mem_of_getElem? hget)

theorem not_infix_append_tail {c : α} {pat a b : List α} (hc : c ∉ pat) (ha : ¬ pat <:+: a)
    (hb : b = [] ∨ b.head? = some c) (htail : ¬ pat <:+: b.tail) : ¬ pat <:+: a ++ b := by
  cases b with
  | nil => rwa [List.append_nil]
  | cons x b =>
      obtain rfl : x = c := by simpa using hb
      exact not_infix_append_sep hc ha htail

/-! ## The last element -/

theorem rfind_eq_none_iff {c : α} {s : List α} : rfind c s = none ↔ c ∉ s := by
  induction s with
  | nil => simp [rfind]
  | cons a s ih =>
      cases hs : rfind c s with
      | some i =>
          have hmem : c ∈ s := by
            by_contra habs
            rw [ih.mpr habs] at hs
            cases hs
          simp [rfind, hs, hmem]
      | none =>
          have habs := ih.mp hs
          by_cases hac : a = c
          · simp [rfind, hs, hac]
          · simp [rfind, hs, hac, habs, Ne.symm hac]

/-- The last `c` is the one with no `c` behind it. -/
theorem rfind_append_sep {c : α} (a : List α) {b : List α} (hb : c ∉ b) :
    rfind c (a ++ c :: b) = some a.length := by
  induction a with
  | nil => simp [rfind, rfind_eq_none_iff.mpr hb]
  | cons x a ih => simp [rfind, ih]

theorem rfind_lt {c : α} {s : List α} {i : Nat} (h : rfind c s = some i) : i < s.length := by
  induction s generalizing i with
  | nil => cases h
  | cons a s ih =>
      cases hs : rfind c s with
      | some j =>
          simp only [rfind, hs, Option.some.injEq] at h
          have hlt := ih hs
          rw [List.length_cons]
          omega
      | none =>
          by_cases hac : a = c
          · simp only [rfind, hs, if_pos hac, Option.some.injEq] at h
            rw [List.length_cons]
            omega
          · simp [rfind, hs, hac] at h

/-- A list with a `c` splits at its last one. -/
theorem exists_last {c : α} {s : List α} (hs : c ∈ s) :
    ∃ a b, s = a ++ c :: b ∧ c ∉ b := by
  induction s with
  | nil => cases hs
  | cons x s ih =>
      by_cases hmem : c ∈ s
      · obtain ⟨a, b, rfl, hb⟩ := ih hmem
        exact ⟨x :: a, b, rfl, hb⟩
      · obtain rfl : c = x := by simpa [hmem] using hs
        exact ⟨[], s, rfl, hmem⟩

/-! ## Behind the last element -/

/-- The part of a list behind the last `c`. -/
def afterLast (c : α) (s : List α) : List α := (s.reverse.takeWhile (· ≠ c)).reverse

theorem afterLast_append_sep {c : α} (a : List α) {b : List α} (hb : c ∉ b) :
    afterLast c (a ++ c :: b) = b := by
  have hcut : before c (b.reverse ++ c :: a.reverse) = b.reverse :=
    before_append_sep (by rwa [List.mem_reverse]) a.reverse
  have hreverse : (a ++ c :: b).reverse = b.reverse ++ c :: a.reverse := by simp
  rw [afterLast, hreverse, ← before, hcut, List.reverse_reverse]

theorem afterLast_of_not_mem {c : α} {s : List α} (hs : c ∉ s) : afterLast c s = s := by
  have hcut : before c s.reverse = s.reverse := before_of_not_mem (by rwa [List.mem_reverse])
  rw [afterLast, ← before, hcut, List.reverse_reverse]

theorem not_mem_afterLast (c : α) (s : List α) : c ∉ afterLast c s := fun h => by
  rw [afterLast, List.mem_reverse] at h
  simpa using List.mem_takeWhile_imp h

/-- What stands in front of some `c` does not matter. -/
theorem afterLast_append_cons (c : α) (a b : List α) :
    afterLast c (a ++ c :: b) = afterLast c b := by
  by_cases hmem : c ∈ b
  · obtain ⟨x, y, rfl, hy⟩ := exists_last hmem
    rw [← List.cons_append, ← List.append_assoc, afterLast_append_sep _ hy,
      afterLast_append_sep _ hy]
  · rw [afterLast_append_sep a hmem, afterLast_of_not_mem hmem]

end Text
