import Fion.Machine.Reach

/-!
# Runs that look the same to a component

Two systems are compared from the point of view of one component: in which states do
they look the same to it?  A step is either the component's own or not.  Two systems
*unwind* when a step of somebody else, on either side, does not show, and an own step
that both take keeps them alike (`Unwinds`).

Then two runs look the same as soon as the component takes the same steps in both, in
the same order (`Unwinds.run`).  How many steps of others there are, and where they
stand, makes no difference.  In particular a run looks like the one in which nobody
else takes a step, and that one can be taken (`Unwinds.alone`).
-/

namespace Machine

variable {σ τ α : Type}

/-- What other components do does not show, and own steps keep two states alike. -/
structure Unwinds (next : σ → α → σ) (adm : σ → α → Prop) (next' : τ → α → τ)
    (adm' : τ → α → Prop) (own : α → Bool) (alike : σ → τ → Prop) : Prop where
  left : ∀ {s t a}, alike s t → adm s a → own a = false → alike (next s a) t
  right : ∀ {s t a}, alike s t → adm' t a → own a = false → alike s (next' t a)
  both : ∀ {s t a}, alike s t → adm s a → adm' t a → own a = true → alike (next s a) (next' t a)

namespace Unwinds

variable {next : σ → α → σ} {adm : σ → α → Prop} {next' : τ → α → τ} {adm' : τ → α → Prop}
  {own : α → Bool} {alike : σ → τ → Prop}

/-- Steps of others on the right side do not show. -/
theorem skip_right (h : Unwinds next adm next' adm' own alike) {s : σ} {t : τ}
    (halike : alike s t) {bs : List α} (hbs : AlwaysStep next' adm' t bs)
    (hnone : bs.filter own = []) : alike s (bs.foldl next' t) := by
  induction bs generalizing t with
  | nil => exact halike
  | cons b bs ih =>
      cases hb : own b with
      | true =>
          rw [List.filter_cons_of_pos hb] at hnone
          cases hnone
      | false =>
          rw [List.filter_cons_of_neg (Bool.eq_false_iff.mp hb)] at hnone
          exact ih (h.right halike hbs.1 hb) hbs.2 hnone

/-- Up to the component's next step, only others take steps. -/
theorem next_own (h : Unwinds next adm next' adm' own alike) {s : σ} {t : τ}
    (halike : alike s t) {bs : List α} (hbs : AlwaysStep next' adm' t bs) {a : α} {rest : List α}
    (hown : bs.filter own = a :: rest) :
    ∃ t' after, alike s t' ∧ adm' t' a ∧ AlwaysStep next' adm' (next' t' a) after ∧
      after.filter own = rest ∧ bs.foldl next' t = after.foldl next' (next' t' a) := by
  induction bs generalizing t with
  | nil => cases hown
  | cons b bs ih =>
      cases hb : own b with
      | true =>
          rw [List.filter_cons_of_pos hb] at hown
          obtain ⟨rfl, hrest⟩ := List.cons.inj hown
          exact ⟨t, bs, halike, hbs.1, hbs.2, hrest, rfl⟩
      | false =>
          rw [List.filter_cons_of_neg (Bool.eq_false_iff.mp hb)] at hown
          exact ih (h.right halike hbs.1 hb) hbs.2 hown

/-- Two runs with the same own steps end in states that look the same. -/
theorem run (h : Unwinds next adm next' adm' own alike) {s : σ} {t : τ} (halike : alike s t)
    {as bs : List α} (has : AlwaysStep next adm s as) (hbs : AlwaysStep next' adm' t bs)
    (hown : as.filter own = bs.filter own) : alike (as.foldl next s) (bs.foldl next' t) := by
  induction as generalizing s t bs with
  | nil => exact h.skip_right halike hbs hown.symm
  | cons a as ih =>
      cases ha : own a with
      | false =>
          rw [List.filter_cons_of_neg (Bool.eq_false_iff.mp ha)] at hown
          exact ih (h.left halike has.1 ha) has.2 hbs hown
      | true =>
          rw [List.filter_cons_of_pos ha] at hown
          obtain ⟨t', after, halike', hadm, hafter, hrest, hrun⟩ :=
            h.next_own halike hbs hown.symm
          rw [hrun]
          exact ih (h.both halike' has.1 hadm ha) has.2 hafter hrest.symm

/-- When own steps that one side can take can be taken on the other side, the
component can run alone. -/
theorem alone (h : Unwinds next adm next' adm' own alike)
    (hadm : ∀ {s t a}, alike s t → adm s a → own a = true → adm' t a) {s : σ} {t : τ}
    (halike : alike s t) {as : List α} (has : AlwaysStep next adm s as) :
    AlwaysStep next' adm' t (as.filter own) := by
  induction as generalizing s t with
  | nil => trivial
  | cons a as ih =>
      cases ha : own a with
      | false =>
          rw [List.filter_cons_of_neg (Bool.eq_false_iff.mp ha)]
          exact ih (h.left halike has.1 ha) has.2
      | true =>
          rw [List.filter_cons_of_pos ha]
          have hnext : adm' t a := hadm halike has.1 ha
          exact ⟨hnext, ih (h.both halike has.1 hnext ha) has.2⟩

end Unwinds

end Machine
