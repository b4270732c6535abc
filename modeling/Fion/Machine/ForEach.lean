import Mathlib.Data.List.Infix

/-!
# Loops that an exception ends

A loop calls a function for the elements of a list in order.  A call changes a state and
returns, or ends the loop with an exception (`forEach`).  The elements it is called for
are a prefix of the list (`called_prefix`), and all of it exactly when every call but the
last returns (`called_eq_iff`).
-/

namespace Machine

variable {ε σ α : Type}

/-- What a loop leaves behind. -/
structure Looped (ε σ α : Type) where
  result : Except ε Unit
  state : σ
  /-- The elements that the function was called for. -/
  called : List α

/-- Call a function for each element, until a call throws. -/
def forEach (f : α → σ → Except ε Unit × σ) : List α → σ → Looped ε σ α
  | [], s => ⟨.ok (), s, []⟩
  | a :: as, s =>
      match f a s with
      | (.error e, s') => ⟨.error e, s', [a]⟩
      | (.ok _, s') =>
          let rest := forEach f as s'
          { rest with called := a :: rest.called }

/-- Every call returns, and the calls lead from one state to another. -/
inductive Returns (f : α → σ → Except ε Unit × σ) : List α → σ → σ → Prop where
  | nil (s : σ) : Returns f [] s s
  | cons {a : α} {as : List α} {s s' s'' : σ} :
      f a s = (.ok (), s') → Returns f as s' s'' → Returns f (a :: as) s s''

variable {f : α → σ → Except ε Unit × σ}

theorem forEach_cons_of_ok {a : α} {s s' : σ} (h : f a s = (.ok (), s')) (as : List α) :
    forEach f (a :: as) s =
      { forEach f as s' with called := a :: (forEach f as s').called } := by
  rw [forEach, h]

theorem forEach_cons_of_error {a : α} {s s' : σ} {e : ε} (h : f a s = (.error e, s'))
    (as : List α) : forEach f (a :: as) s = ⟨.error e, s', [a]⟩ := by
  rw [forEach, h]

/-- A call returns or throws. -/
theorem call_cases (f : α → σ → Except ε Unit × σ) (a : α) (s : σ) :
    (∃ s', f a s = (.ok (), s')) ∨ ∃ e s', f a s = (.error e, s') := by
  cases h : f a s with
  | mk result s' =>
      cases result with
      | ok u => exact .inl ⟨s', rfl⟩
      | error e => exact .inr ⟨e, s', rfl⟩

/-- The loop calls the function for the first elements of the list. -/
theorem called_prefix (as : List α) (s : σ) : (forEach f as s).called <+: as := by
  induction as generalizing s with
  | nil => exact List.prefix_refl _
  | cons a as ih =>
      rcases call_cases f a s with ⟨s', hok⟩ | ⟨e, s', herror⟩
      · rw [forEach_cons_of_ok hok]
        exact (List.prefix_cons_inj a).mpr (ih s')
      · rw [forEach_cons_of_error herror]
        exact (List.prefix_cons_inj a).mpr (List.nil_prefix)

/-- A loop whose calls all return ends where they lead. -/
theorem forEach_of_returns {as : List α} {s s' : σ} (h : Returns f as s s') :
    forEach f as s = ⟨.ok (), s', as⟩ := by
  induction h with
  | nil s => rfl
  | cons hok _ ih => rw [forEach_cons_of_ok hok, ih]

/-- A loop whose calls act on a part of the state is a loop on that part. -/
theorem forEach_embed {τ : Type} {g : α → τ → Except ε Unit × τ} (embed : τ → σ)
    (as : List α) (h : ∀ a ∈ as, ∀ t, f a (embed t) = ((g a t).1, embed (g a t).2)) (t : τ) :
    forEach f as (embed t) =
      { result := (forEach g as t).result
        state := embed (forEach g as t).state
        called := (forEach g as t).called } := by
  induction as generalizing t with
  | nil => rfl
  | cons a as ih =>
      have hcall := h a List.mem_cons_self t
      have hrest : ∀ b ∈ as, ∀ t, f b (embed t) = ((g b t).1, embed (g b t).2) :=
        fun b hb => h b (List.mem_cons_of_mem a hb)
      rcases call_cases g a t with ⟨t', hok⟩ | ⟨e, t', herror⟩
      · rw [hok] at hcall
        rw [forEach_cons_of_ok hok, forEach_cons_of_ok hcall, ih hrest t']
      · rw [herror] at hcall
        rw [forEach_cons_of_error herror, forEach_cons_of_error hcall]

/-- The loop calls the function for every element exactly when every call but the last
returns. -/
theorem called_eq_iff {as : List α} {s : σ} :
    (forEach f as s).called = as ↔ ∃ s', Returns f as.dropLast s s' := by
  induction as generalizing s with
  | nil => exact iff_of_true rfl ⟨s, .nil s⟩
  | cons a as ih =>
      cases as with
      | nil =>
          refine iff_of_true ?_ ⟨s, .nil s⟩
          rcases call_cases f a s with ⟨s', hok⟩ | ⟨e, s', herror⟩
          · rw [forEach_cons_of_ok hok]
            rfl
          · rw [forEach_cons_of_error herror]
      | cons b as =>
          rw [List.dropLast_cons_of_ne_nil (List.cons_ne_nil b as)]
          rcases call_cases f a s with ⟨s', hok⟩ | ⟨e, s', herror⟩
          · rw [forEach_cons_of_ok hok]
            constructor
            · intro h
              obtain ⟨s'', hreturns⟩ := ih.mp (List.cons.inj h).2
              exact ⟨s'', .cons hok hreturns⟩
            · rintro ⟨s'', hreturns⟩
              cases hreturns with
              | cons hok' hrest =>
                  obtain rfl : s' = _ := (Prod.mk.inj (hok.symm.trans hok')).2
                  exact congrArg (a :: ·) (ih.mpr ⟨s'', hrest⟩)
          · rw [forEach_cons_of_error herror]
            refine iff_of_false (fun h => ?_) ?_
            · cases h
            · rintro ⟨s'', hreturns⟩
              cases hreturns with
              | cons hok' _ =>
                  rw [herror] at hok'
                  cases hok'

end Machine
