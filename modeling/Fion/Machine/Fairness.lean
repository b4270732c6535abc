import Fion.Machine.Reach
import Mathlib.Order.RelClasses

/-!
# Fair runs

A run without end is a sequence of states, each of which is followed by itself or by one
that is a step away, so that a run that comes to rest is one too.  An action is weakly fair
in it when it does not stay possible for ever without being taken, and strongly fair when
it is not possible again and again without being taken.

A goal is reached in every fair run when before it there is always an action that brings it
nearer (`Progress`), and that stays possible until the goal is nearer.
-/

namespace Machine

variable {σ ι : Type}

/-- Each state is followed by itself or by one that is a step away. -/
def EndlessRun (step : σ → σ → Prop) (run : Nat → σ) : Prop :=
  ∀ k, run (k + 1) = run k ∨ step (run k) (run (k + 1))

/-- From every point on, the action is impossible some time or is taken. -/
def WeaklyFair (act : σ → σ → Prop) (run : Nat → σ) : Prop :=
  ∀ k, ∃ m, k ≤ m ∧ ((∀ s, ¬ act (run m) s) ∨ act (run m) (run (m + 1)))

/-- If the action is possible again and again, it is taken again and again. -/
def StronglyFair (act : σ → σ → Prop) (run : Nat → σ) : Prop :=
  (∀ k, ∃ m, k ≤ m ∧ ∃ s, act (run m) s) → ∀ k, ∃ m, k ≤ m ∧ act (run m) (run (m + 1))

/-- What every step keeps holds from any state of a run on. -/
theorem EndlessRun.always {step : σ → σ → Prop} {run : Nat → σ} (hrun : EndlessRun step run)
    (Inv : σ → Prop) (hstep : ∀ s s', Inv s → step s s' → Inv s') {k : Nat} (h : Inv (run k))
    {m : Nat} (hm : k ≤ m) : Inv (run m) := by
  induction hm with
  | refl => exact h
  | @step m _ ih =>
      cases hrun m with
      | inl hsame =>
          rw [hsame]
          exact ih
      | inr hnext => exact hstep _ _ ih hnext

/-- An action that is impossible from some point on is weakly fair. -/
theorem WeaklyFair.of_impossible {act : σ → σ → Prop} {run : Nat → σ} {k : Nat}
    (h : ∀ m, k ≤ m → ∀ s, ¬ act (run m) s) : WeaklyFair act run := by
  intro j
  exact ⟨max j k, Nat.le_max_left j k, .inl (h _ (Nat.le_max_right j k))⟩

/-- And strongly fair. -/
theorem StronglyFair.of_impossible {act : σ → σ → Prop} {run : Nat → σ} {k : Nat}
    (h : ∀ m, k ≤ m → ∀ s, ¬ act (run m) s) : StronglyFair act run := by
  intro hoften
  obtain ⟨m, hm, s, hs⟩ := hoften k
  exact absurd hs (h m hm s)

/-- A goal is reached when from each point on it gets nearer some time, since no distance
can fall for ever. -/
theorem reached_of_nearer {β : Type} [LT β] [WellFoundedLT β] (run : Nat → σ)
    (Goal : σ → Prop) (distance : σ → β) {k : Nat}
    (h : ∀ m, k ≤ m → ∃ m', m ≤ m' ∧ (Goal (run m') ∨ distance (run m') < distance (run m))) :
    ∃ m, k ≤ m ∧ Goal (run m) := by
  have hall : ∀ d : β, ∀ m, k ≤ m → distance (run m) = d → ∃ m, k ≤ m ∧ Goal (run m) := by
    intro d
    induction d using WellFoundedLT.induction with
    | ind d ih =>
        intro m hm hd
        obtain ⟨m', hm', hgoal | hless⟩ := h m hm
        · exact ⟨m', Nat.le_trans hm hm', hgoal⟩
        · exact ih _ (hd ▸ hless) m' (Nat.le_trans hm hm') rfl
  exact hall _ k (Nat.le_refl k) rfl

section Map

variable {τ : Type} {act : σ → σ → Prop} {act' : τ → τ → Prop} {run : Nat → σ}

/-- A part of the states of a run goes through a run of its own. -/
theorem EndlessRun.map {step : σ → σ → Prop} {step' : τ → τ → Prop} (f : σ → τ)
    (h : ∀ s s', step s s' → f s' = f s ∨ step' (f s) (f s')) (hrun : EndlessRun step run) :
    EndlessRun step' fun k => f (run k) := by
  intro k
  cases hrun k with
  | inl hsame => exact .inl (congrArg f hsame)
  | inr hnext => exact h _ _ hnext

/-- The part is treated fairly when the whole is. -/
theorem WeaklyFair.map (f : σ → τ) (hpossible : ∀ s t, act' (f s) t → ∃ s', act s s')
    (hact : ∀ s s', act s s' → act' (f s) (f s')) (h : WeaklyFair act run) :
    WeaklyFair act' fun k => f (run k) := by
  intro k
  obtain ⟨m, hm, htaken⟩ := h k
  refine ⟨m, hm, htaken.imp (fun hnone t ht => ?_) (hact _ _)⟩
  obtain ⟨s', hs'⟩ := hpossible _ t ht
  exact hnone s' hs'

theorem StronglyFair.map (f : σ → τ) (hpossible : ∀ s t, act' (f s) t → ∃ s', act s s')
    (hact : ∀ s s', act s s' → act' (f s) (f s')) (h : StronglyFair act run) :
    StronglyFair act' fun k => f (run k) := by
  intro hoften k
  have hwhole : ∀ j, ∃ m, j ≤ m ∧ ∃ s, act (run m) s := by
    intro j
    obtain ⟨m, hm, t, ht⟩ := hoften j
    exact ⟨m, hm, hpossible _ t ht⟩
  obtain ⟨m, hm, htaken⟩ := h hwhole k
  exact ⟨m, hm, hact _ _ htaken⟩

end Map

section Finite

variable {α : Type} {next : σ → α → σ}

/-- A run along labels that then comes to rest. -/
theorem EndlessRun.of_alwaysStep {step : σ → σ → Prop} {s : σ} {as : List α}
    (h : AlwaysStep next (fun s a => step s (next s a)) s as) :
    EndlessRun step fun k => (as.take k).foldl next s := by
  intro k
  induction as generalizing s k with
  | nil => exact .inl (by simp)
  | cons a as ih =>
      cases k with
      | zero => exact .inr (by simpa using h.1)
      | succ k => exact ih h.2 k

/-- It is fair to an action that is impossible at its end. -/
theorem WeaklyFair.of_last {act : σ → σ → Prop} {s : σ} {as : List α}
    (h : ∀ s', ¬ act (as.foldl next s) s') :
    WeaklyFair act fun k => (as.take k).foldl next s := by
  refine .of_impossible (k := as.length) fun m hm => ?_
  show ∀ s', ¬ act ((as.take m).foldl next s) s'
  rw [List.take_of_length_le hm]
  exact h

/-- It is strongly fair to it too. -/
theorem StronglyFair.of_last {act : σ → σ → Prop} {s : σ} {as : List α}
    (h : ∀ s', ¬ act (as.foldl next s) s') :
    StronglyFair act fun k => (as.take k).foldl next s := by
  refine .of_impossible (k := as.length) fun m hm => ?_
  show ∀ s', ¬ act ((as.take m).foldl next s) s'
  rw [List.take_of_length_le hm]
  exact h

end Finite

/-- The way to a goal.  Before it some action helps: it is possible and brings the goal
nearer, and every other step brings the goal nearer too or leaves that action helpful. -/
structure Progress (step : σ → σ → Prop) (act : ι → σ → σ → Prop) (Inv Goal : σ → Prop)
    (β : Type) [LT β] where
  distance : σ → β
  Helps : ι → σ → Prop
  helper : ∀ s, Inv s → ¬ Goal s → ∃ i, Helps i s
  possible : ∀ i s, Inv s → ¬ Goal s → Helps i s → ∃ s', act i s s'
  nearer : ∀ i s s', Inv s → ¬ Goal s → Helps i s → act i s s' → distance s' < distance s
  kept : ∀ i s s', Inv s → ¬ Goal s → Helps i s → step s s' →
    distance s' < distance s ∨ distance s' = distance s ∧ Helps i s'

section Reaches

variable {step : σ → σ → Prop} {act : ι → σ → σ → Prop} {Inv Goal : σ → Prop} {β : Type}
  [LT β] (p : Progress step act Inv Goal β)

include p

/-- As long as the goal is not reached, it gets nearer. -/
theorem Progress.gets_nearer {run : Nat → σ} (hrun : EndlessRun step run)
    (hfair : ∀ i, WeaklyFair (act i) run) {k : Nat} (hinv : ∀ m, k ≤ m → Inv (run m))
    (hgoal : ∀ m, k ≤ m → ¬ Goal (run m)) :
    ∃ m, k ≤ m ∧ p.distance (run m) < p.distance (run k) := by
  by_contra hfar
  obtain ⟨i, hi⟩ := p.helper _ (hinv k (Nat.le_refl k)) (hgoal k (Nat.le_refl k))
  -- the action that helps at first would help for ever
  have hsame : ∀ m, k ≤ m → p.distance (run m) = p.distance (run k) ∧ p.Helps i (run m) := by
    intro m hm
    induction hm with
    | refl => exact ⟨rfl, hi⟩
    | @step m hm ih =>
        cases hrun m with
        | inl hstays =>
            rw [hstays]
            exact ih
        | inr hnext =>
            cases p.kept i _ _ (hinv m hm) (hgoal m hm) ih.2 hnext with
            | inl hless => exact absurd ⟨m + 1, Nat.le_succ_of_le hm, ih.1 ▸ hless⟩ hfar
            | inr heq => exact ⟨heq.1.trans ih.1, heq.2⟩
  obtain ⟨m, hm, htaken⟩ := hfair i k
  obtain ⟨hdistance, hhelps⟩ := hsame m hm
  cases htaken with
  | inl himpossible =>
      obtain ⟨s', hs'⟩ := p.possible i _ (hinv m hm) (hgoal m hm) hhelps
      exact himpossible s' hs'
  | inr hact =>
      have hless := p.nearer i _ _ (hinv m hm) (hgoal m hm) hhelps hact
      exact hfar ⟨m + 1, Nat.le_succ_of_le hm, hdistance ▸ hless⟩

/-- In a fair run the goal is reached. -/
theorem Progress.reaches [WellFoundedLT β] (hstep : ∀ s s', Inv s → step s s' → Inv s')
    {run : Nat → σ} (hrun : EndlessRun step run) (hfair : ∀ i, WeaklyFair (act i) run) {k : Nat}
    (h : Inv (run k)) : ∃ m, k ≤ m ∧ Goal (run m) := by
  refine reached_of_nearer run Goal p.distance fun m hm => ?_
  by_contra hnever
  have hgoal : ∀ j, m ≤ j → ¬ Goal (run j) := fun j hj hg => hnever ⟨j, hj, .inl hg⟩
  have hinv : ∀ j, m ≤ j → Inv (run j) := fun j hj =>
    hrun.always Inv hstep h (Nat.le_trans hm hj)
  obtain ⟨m', hm', hless⟩ := p.gets_nearer hrun hfair hinv hgoal
  exact hnever ⟨m', hm', .inr hless⟩

end Reaches

end Machine
