import Mathlib.Logic.Function.Basic

/-!
# Names that are used again

A ledger gives names to resources.  A name belongs to one resource at a time and
is free again after a release, so it does not identify a resource over time.  The
ledger therefore numbers the resources as they are acquired, and counts how often
each of them was released.  A release goes to whichever resource has the name, and
is a stray one if none has.

As long as only free names are acquired and only names in use are released, the
numbers stay apart (`Sound`), and every resource has either been released once or
still has a name (`Sound.released_or_held`).
-/

namespace Machine

/-- Names of type `ν`, the resources that have them, and the releases so far. -/
structure Ledger (ν : Type) where
  holder : ν → Option Nat := fun _ => none
  issued : Nat := 0
  releases : Nat → Nat := fun _ => 0
  strays : Nat := 0

namespace Ledger

variable {ν : Type}

/-- No resource has two names, those with a name were not released, the others were
released once, and no release was a stray one. -/
structure Sound (l : Ledger ν) : Prop where
  injective : ∀ x y r, l.holder x = some r → l.holder y = some r → x = y
  current : ∀ x r, l.holder x = some r → r < l.issued ∧ l.releases r = 0
  past : ∀ r < l.issued, l.releases r = 1 ∨ ∃ x, l.holder x = some r
  future : ∀ r, l.issued ≤ r → l.releases r = 0
  aimed : l.strays = 0

theorem sound_empty : ({} : Ledger ν).Sound where
  injective := by simp
  current := by simp
  past := by simp
  future := by simp
  aimed := rfl

/-- Every resource was released once and has no name, or was not released and has
one. -/
theorem Sound.released_or_held {l : Ledger ν} (h : l.Sound) {r : Nat} (hr : r < l.issued) :
    (l.releases r = 1 ∧ ∀ x, l.holder x ≠ some r) ∨
      (l.releases r = 0 ∧ ∃ x, l.holder x = some r) := by
  rcases h.past r hr with hreleased | ⟨x, hx⟩
  · refine .inl ⟨hreleased, fun x hx => ?_⟩
    have hzero := (h.current x r hx).2
    omega
  · exact .inr ⟨(h.current x r hx).2, x, hx⟩

variable [DecidableEq ν]

/-- A new resource gets a name. -/
def acquire (l : Ledger ν) (x : ν) : Ledger ν where
  holder := Function.update l.holder x (some l.issued)
  issued := l.issued + 1
  releases := l.releases
  strays := l.strays

/-- The resource that has the name is released. -/
def release (l : Ledger ν) (x : ν) : Ledger ν :=
  match l.holder x with
  | none =>
      { holder := l.holder
        issued := l.issued
        releases := l.releases
        strays := l.strays + 1 }
  | some r =>
      { holder := Function.update l.holder x none
        issued := l.issued
        releases := Function.update l.releases r (l.releases r + 1)
        strays := l.strays }

@[simp] theorem holder_acquire_self (l : Ledger ν) (x : ν) :
    (l.acquire x).holder x = some l.issued := by
  simp [acquire]

theorem holder_acquire_of_ne {l : Ledger ν} {x y : ν} (h : y ≠ x) :
    (l.acquire x).holder y = l.holder y := by
  simp [acquire, h]

@[simp] theorem holder_release_self (l : Ledger ν) (x : ν) : (l.release x).holder x = none := by
  unfold release
  split
  · assumption
  · simp

theorem holder_release_of_ne {l : Ledger ν} {x y : ν} (h : y ≠ x) :
    (l.release x).holder y = l.holder y := by
  unfold release
  split
  · rfl
  · simp [h]

/-- Acquiring a free name keeps the ledger sound. -/
theorem Sound.acquire {l : Ledger ν} (h : l.Sound) {x : ν} (hfree : l.holder x = none) :
    (l.acquire x).Sound where
  injective := by
    intro y z r hy hz
    -- the number of the new resource is not in use
    have hnew : ∀ w, w ≠ x → (l.acquire x).holder w = some r → r < l.issued := fun w hw hwr =>
      (h.current w r (holder_acquire_of_ne hw ▸ hwr)).1
    by_cases hyx : y = x <;> by_cases hzx : z = x
    · rw [hyx, hzx]
    · subst hyx
      have hlt := hnew z hzx hz
      rw [holder_acquire_self, Option.some.injEq] at hy
      omega
    · subst hzx
      have hlt := hnew y hyx hy
      rw [holder_acquire_self, Option.some.injEq] at hz
      omega
    · rw [holder_acquire_of_ne hyx] at hy
      rw [holder_acquire_of_ne hzx] at hz
      exact h.injective y z r hy hz
  current := by
    intro y r hy
    by_cases hyx : y = x
    · subst hyx
      rw [holder_acquire_self, Option.some.injEq] at hy
      subst hy
      exact ⟨Nat.lt_succ_self _, h.future _ (Nat.le_refl _)⟩
    · rw [holder_acquire_of_ne hyx] at hy
      exact ⟨Nat.lt_succ_of_lt (h.current y r hy).1, (h.current y r hy).2⟩
  past := by
    intro r hr
    rcases Nat.lt_succ_iff_lt_or_eq.mp hr with hlt | rfl
    · rcases h.past r hlt with hreleased | ⟨y, hy⟩
      · exact .inl hreleased
      · refine .inr ⟨y, ?_⟩
        rw [holder_acquire_of_ne (fun heq => by rw [heq, hfree] at hy; cases hy)]
        exact hy
    · exact .inr ⟨x, holder_acquire_self l x⟩
  future := fun r hr => h.future r (Nat.le_of_succ_le hr)
  aimed := h.aimed

/-- Releasing a name in use keeps the ledger sound. -/
theorem Sound.release {l : Ledger ν} (h : l.Sound) {x : ν} {r : Nat} (hx : l.holder x = some r) :
    (l.release x).Sound := by
  have heq : l.release x =
      { holder := Function.update l.holder x none
        issued := l.issued
        releases := Function.update l.releases r (l.releases r + 1)
        strays := l.strays } := by
    simp only [Ledger.release, hx]
  obtain ⟨hr, hzero⟩ := h.current x r hx
  -- another name belongs to another resource
  have hother : ∀ y r', (l.release x).holder y = some r' → l.holder y = some r' ∧ r' ≠ r := by
    intro y r' hy
    by_cases hyx : y = x
    · rw [hyx, holder_release_self] at hy
      cases hy
    · rw [holder_release_of_ne hyx] at hy
      exact ⟨hy, fun hrr => hyx (h.injective y x r (hrr ▸ hy) hx)⟩
  constructor
  · exact fun y z r' hy hz => h.injective y z r' (hother y r' hy).1 (hother z r' hz).1
  · intro y r' hy
    obtain ⟨hold, hne⟩ := hother y r' hy
    rw [heq]
    simpa [hne] using h.current y r' hold
  · intro r' hr'
    rw [heq] at hr' ⊢
    by_cases hrr : r' = r
    · subst hrr
      exact .inl (by simp [hzero])
    · rcases h.past r' hr' with hreleased | ⟨y, hy⟩
      · exact .inl (by simpa [hrr] using hreleased)
      · refine .inr ⟨y, ?_⟩
        have hyx : y ≠ x := fun hyx => hrr (Option.some.inj ((hyx ▸ hy).symm.trans hx))
        simpa [hyx] using hy
  · intro r' hr'
    rw [heq] at hr' ⊢
    have hrr : r' ≠ r := fun hrr => by simp only at hr'; omega
    simpa [hrr] using h.future r' hr'
  · rw [heq]
    exact h.aimed

end Ledger

end Machine
