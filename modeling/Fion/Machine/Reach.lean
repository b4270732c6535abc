import Mathlib.Logic.Relation

/-!
# Runs

Two ways in which a system takes steps.  A step relation says which states may
follow a state; what holds of every reachable state is proved by `Reachable.always`.
A step function reads one label at a time, so that a run is a fold; what holds
all along such a run is `Always`, and `always_iff` decides it step by step.
-/

namespace Machine

variable {σ α : Type}

/-! ## Step relations -/

/-- The state ends a run that starts in an initial state. -/
def Reachable (init : σ → Prop) (step : σ → σ → Prop) (s : σ) : Prop :=
  ∃ s₀, init s₀ ∧ Relation.ReflTransGen step s₀ s

/-- What holds initially and survives every step holds of every reachable state. -/
theorem Reachable.always {init : σ → Prop} {step : σ → σ → Prop} {Inv : σ → Prop}
    (hinit : ∀ s, init s → Inv s) (hstep : ∀ s s', Inv s → step s s' → Inv s') {s : σ}
    (h : Reachable init step s) : Inv s := by
  obtain ⟨s₀, h₀, hrun⟩ := h
  induction hrun with
  | refl => exact hinit s₀ h₀
  | tail _ hlast ih => exact hstep _ _ ih hlast

/-! ## Step functions -/

section Labelled

variable (next : σ → α → σ)

/-- Every state the run passes through, the first and the last included. -/
def Always (P : σ → Prop) : σ → List α → Prop
  | s, [] => P s
  | s, a :: as => P s ∧ Always P (next s a) as

/-- Every step the run takes. -/
def AlwaysStep (ok : σ → α → Prop) : σ → List α → Prop
  | _, [] => True
  | s, a :: as => ok s a ∧ AlwaysStep ok (next s a) as

end Labelled

variable {next : σ → α → σ}

theorem Always.head {P : σ → Prop} {s : σ} {as : List α} (h : Always next P s as) : P s := by
  cases as with
  | nil => exact h
  | cons a as => exact h.1

theorem Always.last {P : σ → Prop} {s : σ} {as : List α} (h : Always next P s as) :
    P (as.foldl next s) := by
  induction as generalizing s with
  | nil => exact h
  | cons a as ih => exact ih h.2

/-- What follows from a property holds wherever it does. -/
theorem Always.imp {P Q : σ → Prop} (h : ∀ s, P s → Q s) {s : σ} {as : List α}
    (hP : Always next P s as) : Always next Q s as := by
  induction as generalizing s with
  | nil => exact h s hP
  | cons a as ih => exact ⟨h s hP.1, ih hP.2⟩

/-- What follows from a condition is met by every step that meets it. -/
theorem AlwaysStep.imp {ok ok' : σ → α → Prop} (h : ∀ s a, ok s a → ok' s a) {s : σ}
    {as : List α} (hok : AlwaysStep next ok s as) : AlwaysStep next ok' s as := by
  induction as generalizing s with
  | nil => trivial
  | cons a as ih => exact ⟨h s a hok.1, ih hok.2⟩

/-- What every step meets is met along every run. -/
theorem AlwaysStep.of_forall {ok : σ → α → Prop} (h : ∀ s a, ok s a) {s : σ} {as : List α} :
    AlwaysStep next ok s as := by
  induction as generalizing s with
  | nil => trivial
  | cons a as ih => exact ⟨h s a, ih⟩

/-- What holds of every label is met by every step. -/
theorem AlwaysStep.of_forall_mem {ok : α → Prop} {s : σ} {as : List α} (h : ∀ a ∈ as, ok a) :
    AlwaysStep next (fun _ a => ok a) s as := by
  induction as generalizing s with
  | nil => trivial
  | cons a as ih =>
      obtain ⟨ha, has⟩ := List.forall_mem_cons.mp h
      exact ⟨ha, ih has⟩

/-- Two conditions that every step meets. -/
theorem AlwaysStep.and {ok ok' : σ → α → Prop} {s : σ} {as : List α}
    (hok : AlwaysStep next ok s as) (hok' : AlwaysStep next ok' s as) :
    AlwaysStep next (fun s a => ok s a ∧ ok' s a) s as := by
  induction as generalizing s with
  | nil => trivial
  | cons a as ih => exact ⟨⟨hok.1, hok'.1⟩, ih hok.2 hok'.2⟩

/-- What an invariant promises of the next step holds of every step. -/
theorem AlwaysStep.of_inv {adm ok : σ → α → Prop} {Inv : σ → Prop}
    (hinv : ∀ s a, Inv s → adm s a → Inv (next s a)) (hok : ∀ s a, Inv s → adm s a → ok s a)
    {s : σ} (hs : Inv s) {as : List α} (hadm : AlwaysStep next adm s as) :
    AlwaysStep next ok s as := by
  induction as generalizing s with
  | nil => trivial
  | cons a as ih => exact ⟨hok s a hs hadm.1, ih (hinv s a hs hadm.1) hadm.2⟩

/-- A run in two parts. -/
theorem alwaysStep_append {ok : σ → α → Prop} {s : σ} {as bs : List α} :
    AlwaysStep next ok s (as ++ bs) ↔
      AlwaysStep next ok s as ∧ AlwaysStep next ok (as.foldl next s) bs := by
  induction as generalizing s with
  | nil => simp [AlwaysStep]
  | cons a as ih => simp [AlwaysStep, ih, and_assoc]

/-- The steps of a run that are of one kind, counted. -/
def countSteps (next : σ → α → σ) (kind : σ → α → Bool) : σ → List α → Nat
  | _, [] => 0
  | s, a :: as => (kind s a).toNat + countSteps next kind (next s a) as

/-- What no step makes more, and each step of a kind makes less by an amount, a run makes
less by that amount for each of its steps of the kind. -/
theorem measure_le_of_countSteps {adm : σ → α → Prop} {Inv : σ → Prop} {kind : σ → α → Bool}
    {measure : σ → Nat} {amount : Nat} (hinv : ∀ s a, Inv s → adm s a → Inv (next s a))
    (hstep : ∀ s a, Inv s → adm s a →
      measure (next s a) ≤ measure s - amount * (kind s a).toNat) {s : σ} (hs : Inv s)
    {as : List α} (hadm : AlwaysStep next adm s as) :
    measure (as.foldl next s) ≤ measure s - amount * countSteps next kind s as := by
  induction as generalizing s with
  | nil => exact Nat.le_refl _
  | cons a as ih =>
      have hhead := hstep s a hs hadm.1
      have hrest := ih (hinv s a hs hadm.1) hadm.2
      rw [countSteps, Nat.mul_add, ← Nat.sub_sub]
      exact Nat.le_trans hrest (Nat.sub_le_sub_right hhead _)

/-- A property that an admitted step has behind it exactly when a condition is met
holds all along a run of such steps exactly when each of them meets the condition.
The invariant only has to survive the steps that meet it. -/
theorem always_iff_of_ok {adm ok : σ → α → Prop} {Inv P : σ → Prop}
    (hinv : ∀ s a, Inv s → adm s a → ok s a → Inv (next s a))
    (hstep : ∀ s a, Inv s → adm s a → (P (next s a) ↔ ok s a)) {s : σ} (hs : Inv s)
    (hP : P s) {as : List α} (hadm : AlwaysStep next adm s as) :
    Always next P s as ↔ AlwaysStep next ok s as := by
  induction as generalizing s with
  | nil => simp [Always, AlwaysStep, hP]
  | cons a as ih =>
      obtain ⟨ha, has⟩ := hadm
      simp only [Always, AlwaysStep, hP, true_and]
      constructor
      · intro h
        have hok : ok s a := (hstep s a hs ha).mp h.head
        exact ⟨hok, (ih (hinv s a hs ha hok) h.head has).mp h⟩
      · rintro ⟨hok, h⟩
        exact (ih (hinv s a hs ha hok) ((hstep s a hs ha).mpr hok) has).mpr h

/-- A property that an admitted step keeps exactly when a condition is met holds
all along a run of such steps exactly when each of them meets the condition. -/
theorem always_iff {adm ok : σ → α → Prop} {Inv P : σ → Prop}
    (hinv : ∀ s a, Inv s → adm s a → Inv (next s a))
    (hstep : ∀ s a, Inv s → adm s a → P s → (P (next s a) ↔ ok s a)) {s : σ} (hs : Inv s)
    (hP : P s) {as : List α} (hadm : AlwaysStep next adm s as) :
    Always next P s as ↔ AlwaysStep next ok s as :=
  always_iff_of_ok
    (fun s a (h : Inv s ∧ P s) ha hok => ⟨hinv s a h.1 ha, (hstep s a h.1 ha h.2).mpr hok⟩)
    (fun s a h ha => hstep s a h.1 ha h.2) ⟨hs, hP⟩ hP hadm

/-- An invariant that the steps under a condition keep holds all along a run of such
steps. -/
theorem always_of_ok {adm ok : σ → α → Prop} {Inv : σ → Prop}
    (hinv : ∀ s a, Inv s → adm s a → ok s a → Inv (next s a)) {s : σ} (hs : Inv s)
    {as : List α} (hadm : AlwaysStep next adm s as) (hok : AlwaysStep next ok s as) :
    Always next Inv s as := by
  induction as generalizing s with
  | nil => exact hs
  | cons a as ih => exact ⟨hs, ih (hinv s a hs hadm.1 hok.1) hadm.2 hok.2⟩

/-- A condition whose violation breaks the property at once or dooms the run to end
without it is met by every step of a run that keeps the property. -/
theorem ok_of_always {adm ok : σ → α → Prop} {Inv P Doomed : σ → Prop}
    (hinv : ∀ s a, Inv s → adm s a → ok s a → Inv (next s a))
    (hbad : ∀ s a, Inv s → adm s a → ¬ ok s a → P (next s a) → Doomed (next s a))
    (hdoomed : ∀ s a, Doomed s → adm s a → Doomed (next s a)) {s : σ} (hs : Inv s)
    {as : List α} (hadm : AlwaysStep next adm s as)
    (hend : ¬ (Doomed (as.foldl next s) ∧ P (as.foldl next s)))
    (hP : Always next P s as) : AlwaysStep next ok s as := by
  induction as generalizing s with
  | nil => trivial
  | cons a as ih =>
      obtain ⟨ha, has⟩ := hadm
      by_cases hok : ok s a
      · exact ⟨hok, ih (hinv s a hs ha hok) has hend hP.2⟩
      · have hdoom : Doomed (next s a) := hbad s a hs ha hok hP.2.head
        have hrun : Always next Doomed (next s a) as :=
          always_of_ok (fun s b hs hb _ => hdoomed s b hs hb) hdoom has has
        exact absurd ⟨hrun.last, hP.2.last⟩ hend

end Machine
