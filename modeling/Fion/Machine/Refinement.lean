import Fion.Machine.Reach

/-!
# Refinement

A system with more detail is compared with one with less.  A step of the former shows as
some steps of the latter, possibly none, which may depend on the state (`emitted`).  The
former *refines* the latter along a relation of states when these steps can be taken and
end in a related state (`Refines`).  Then a whole run shows as a run (`Refines.run`), so
that what holds of every run of the simpler system can be used for the other one.
-/

namespace Machine

variable {σ τ α β : Type}

/-- What a run shows as. -/
def emitted (next : σ → α → σ) (emit : σ → α → List β) : σ → List α → List β
  | _, [] => []
  | s, a :: as => emit s a ++ emitted next emit (next s a) as

/-- Each step shows as steps that can be taken, and leads to a related state. -/
structure Refines (next : σ → α → σ) (adm : σ → α → Prop) (next' : τ → β → τ)
    (adm' : τ → β → Prop) (emit : σ → α → List β) (rel : σ → τ → Prop) : Prop where
  step : ∀ {s t a}, rel s t → adm s a →
    AlwaysStep next' adm' t (emit s a) ∧ rel (next s a) ((emit s a).foldl next' t)

variable {next : σ → α → σ} {adm : σ → α → Prop} {next' : τ → β → τ} {adm' : τ → β → Prop}
  {emit : σ → α → List β} {rel : σ → τ → Prop}

/-- When what a step shows as does not depend on the state, the steps of a run show one
by one. -/
theorem emitted_eq_flatMap {f : α → List β} (s : σ) (as : List α) :
    emitted next (fun _ a => f a) s as = as.flatMap f := by
  induction as generalizing s with
  | nil => rfl
  | cons a as ih => rw [emitted, ih, List.flatMap_cons]

/-- A run shows as a run. -/
theorem Refines.run (h : Refines next adm next' adm' emit rel) {s : σ} {t : τ}
    (hst : rel s t) {as : List α} (has : AlwaysStep next adm s as) :
    AlwaysStep next' adm' t (emitted next emit s as) ∧
      rel (as.foldl next s) ((emitted next emit s as).foldl next' t) := by
  induction as generalizing s t with
  | nil => exact ⟨trivial, hst⟩
  | cons a as ih =>
      obtain ⟨hstep, hnext⟩ := h.step hst has.1
      obtain ⟨hrun, hlast⟩ := ih hnext has.2
      rw [emitted, alwaysStep_append, List.foldl_append]
      exact ⟨⟨hstep, hrun⟩, hlast⟩

end Machine
