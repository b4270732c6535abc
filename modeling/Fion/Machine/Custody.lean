import Fion.Machine.Ledger

/-!
# Owners of names

Owners acquire resources and keep the names of what they acquired.  A name is all they
have: who forgets one cannot release the resource any more, and who keeps one too
long releases something else.

`Kept` says that neither happens.  Taking a free name, dropping one and giving one to
an owner without a name keep it so, and once no owner has a name, every resource was
released exactly once (`Kept.released_of_none`).  `Lost` is the opposite for one
resource: no owner has its name, so nobody will ever release it.
-/

namespace Machine

/-! ## Outstanding resources -/

namespace Ledger

variable {ν : Type} {l : Ledger ν} {x : ν} {r : Nat}

/-- The resource was not released, and this is its only name. -/
structure Outstanding (l : Ledger ν) (x : ν) (r : Nat) : Prop where
  held : l.holder x = some r
  issued : r < l.issued
  unreleased : l.releases r = 0
  unique : ∀ y, l.holder y = some r → y = x

theorem Sound.outstanding (h : l.Sound) (hx : l.holder x = some r) : l.Outstanding x r where
  held := hx
  issued := (h.current x r hx).1
  unreleased := (h.current x r hx).2
  unique := fun y hy => h.injective y x r hy hx

variable [DecidableEq ν]

@[simp] theorem issued_release (l : Ledger ν) (y : ν) : (l.release y).issued = l.issued := by
  unfold release
  split <;> rfl

/-- A release by name counts for the resource that has it. -/
theorem releases_release_of_holder_ne {y : ν} (hy : l.holder y ≠ some r) :
    (l.release y).releases r = l.releases r := by
  unfold release
  split
  · rfl
  next r' hr' =>
    have hne : r ≠ r' := fun heq => hy (heq ▸ hr')
    simp [hne]

theorem Outstanding.acquire (h : l.Outstanding x r) {y : ν} (hfree : l.holder y = none) :
    (l.acquire y).Outstanding x r := by
  have hxy : x ≠ y := fun heq => by
    have hheld := h.held
    rw [heq, hfree] at hheld
    cases hheld
  refine ⟨?_, Nat.lt_succ_of_lt h.issued, h.unreleased, fun z hz => ?_⟩
  · rw [holder_acquire_of_ne hxy]
    exact h.held
  · by_cases hzy : z = y
    · rw [hzy, holder_acquire_self, Option.some.injEq] at hz
      exact absurd hz (Nat.ne_of_gt h.issued)
    · rw [holder_acquire_of_ne hzy] at hz
      exact h.unique z hz

theorem Outstanding.release (h : l.Outstanding x r) {y : ν} (hyx : y ≠ x) :
    (l.release y).Outstanding x r := by
  refine ⟨?_, ?_, ?_, fun z hz => ?_⟩
  · rw [holder_release_of_ne (Ne.symm hyx)]
    exact h.held
  · rw [issued_release]
    exact h.issued
  · rw [releases_release_of_holder_ne fun hy => hyx (h.unique y hy)]
    exact h.unreleased
  · by_cases hzy : z = y
    · rw [hzy, holder_release_self] at hz
      cases hz
    · rw [holder_release_of_ne hzy] at hz
      exact h.unique z hz

end Ledger

/-! ## Custody -/

/-- The name each owner has, if any, and the ledger of all names. -/
structure Custody (ι ν : Type) where
  name : ι → Option ν := fun _ => none
  ledger : Ledger ν := {}

namespace Custody

variable {ι ν : Type} {c : Custody ι ν}

/-- What is held has an owner, who is the only one with its name. -/
structure Kept (c : Custody ι ν) : Prop where
  sound : c.ledger.Sound
  held : ∀ i x, c.name i = some x → ∃ r, c.ledger.holder x = some r
  apart : ∀ i j x, c.name i = some x → c.name j = some x → i = j
  owned : ∀ x r, c.ledger.holder x = some r → ∃ i, c.name i = some x

theorem kept_empty : ({} : Custody ι ν).Kept where
  sound := Ledger.sound_empty
  held := by simp
  apart := by simp
  owned := by simp

/-- Once no owner has a name, every resource was released exactly once. -/
theorem Kept.released_of_none (h : c.Kept) (hnone : ∀ i, c.name i = none) {r : Nat}
    (hr : r < c.ledger.issued) : c.ledger.releases r = 1 := by
  rcases h.sound.past r hr with hreleased | ⟨x, hx⟩
  · exact hreleased
  · obtain ⟨i, hi⟩ := h.owned x r hx
    rw [hnone i] at hi
    cases hi

/-- The resource is outstanding and no owner has its name. -/
structure Lost (c : Custody ι ν) (x : ν) (r : Nat) : Prop where
  outstanding : c.ledger.Outstanding x r
  forgotten : ∀ i, c.name i ≠ some x

variable [DecidableEq ι]

/-- The owner's name is replaced, and nothing is released. -/
def overwrite (c : Custody ι ν) (i : ι) (n : Option ν) : Custody ι ν where
  name := Function.update c.name i n
  ledger := c.ledger

@[simp] theorem ledger_overwrite (c : Custody ι ν) (i : ι) (n : Option ν) :
    (c.overwrite i n).ledger = c.ledger := rfl

@[simp] theorem name_overwrite_self (c : Custody ι ν) (i : ι) (n : Option ν) :
    (c.overwrite i n).name i = n := Function.update_self ..

theorem name_overwrite_of_ne {i j : ι} (h : j ≠ i) (n : Option ν) :
    (c.overwrite i n).name j = c.name j := Function.update_of_ne h ..

theorem overwrite_name (c : Custody ι ν) (i : ι) : c.overwrite i (c.name i) = c := by
  rw [overwrite, Function.update_eq_self]

/-- A name that its owner overwrites is lost: nobody else has it. -/
theorem Kept.lost_overwrite (h : c.Kept) {i : ι} {x : ν} (hi : c.name i = some x) {n : Option ν}
    (hn : n ≠ some x) : ∃ r, (c.overwrite i n).Lost x r := by
  obtain ⟨r, hr⟩ := h.held i x hi
  refine ⟨r, h.sound.outstanding hr, fun j hj => ?_⟩
  by_cases hji : j = i
  · rw [hji, name_overwrite_self] at hj
    exact hn hj
  · rw [name_overwrite_of_ne hji] at hj
    exact hji (h.apart j i x hj hi)

/-- What is lost stays lost while only other names are overwritten and released. -/
theorem Lost.overwrite {x : ν} {r : Nat} (h : c.Lost x r) (i : ι) {n : Option ν}
    (hn : n ≠ some x) : (c.overwrite i n).Lost x r where
  outstanding := h.outstanding
  forgotten := fun j hj => by
    by_cases hji : j = i
    · rw [hji, name_overwrite_self] at hj
      exact hn hj
    · rw [name_overwrite_of_ne hji] at hj
      exact h.forgotten j hj

/-- The first owner hands its name over to the second. -/
def give (c : Custody ι ν) (i j : ι) : Custody ι ν :=
  (c.overwrite j (c.name i)).overwrite i none

theorem Lost.give {x : ν} {r : Nat} (h : c.Lost x r) (i j : ι) : (c.give i j).Lost x r :=
  (h.overwrite j (h.forgotten i)).overwrite i nofun

theorem Kept.give (h : c.Kept) (i : ι) {j : ι} (hj : c.name j = none) : (c.give i j).Kept := by
  -- a name of the new owner was the old one's
  have hold : ∀ k x, (c.give i j).name k = some x →
      c.name (if k = j then i else k) = some x ∧ k ≠ i := by
    intro k x hk
    have hki : k ≠ i := fun heq => by
      rw [heq, Custody.give, name_overwrite_self] at hk
      cases hk
    rw [Custody.give, name_overwrite_of_ne hki] at hk
    by_cases hkj : k = j
    · rw [hkj, name_overwrite_self] at hk
      rw [if_pos hkj]
      exact ⟨hk, hki⟩
    · rw [name_overwrite_of_ne hkj] at hk
      rw [if_neg hkj]
      exact ⟨hk, hki⟩
  refine ⟨h.sound, fun k x hk => h.held _ x (hold k x hk).1, ?_, ?_⟩
  · intro k k' x hk hk'
    obtain ⟨hk, hki⟩ := hold k x hk
    obtain ⟨hk', hki'⟩ := hold k' x hk'
    have heq := h.apart _ _ x hk hk'
    by_cases hkj : k = j <;> by_cases hkj' : k' = j
    · rw [hkj, hkj']
    · rw [if_pos hkj, if_neg hkj'] at heq
      exact absurd heq.symm hki'
    · rw [if_neg hkj, if_pos hkj'] at heq
      exact absurd heq hki
    · rwa [if_neg hkj, if_neg hkj'] at heq
  · intro x r hx
    obtain ⟨k, hk⟩ := h.owned x r hx
    have hkj : k ≠ j := fun heq => by
      rw [heq, hj] at hk
      cases hk
    by_cases hki : k = i
    · have hji : j ≠ i := fun heq => hkj (hki.trans heq.symm)
      refine ⟨j, ?_⟩
      rw [Custody.give, name_overwrite_of_ne hji, name_overwrite_self, ← hki]
      exact hk
    · refine ⟨k, ?_⟩
      rw [Custody.give, name_overwrite_of_ne hki, name_overwrite_of_ne hkj]
      exact hk

variable [DecidableEq ν]

/-- The owner acquires a resource. -/
def take (c : Custody ι ν) (i : ι) (x : ν) : Custody ι ν where
  name := Function.update c.name i (some x)
  ledger := c.ledger.acquire x

@[simp] theorem ledger_take (c : Custody ι ν) (i : ι) (x : ν) :
    (c.take i x).ledger = c.ledger.acquire x := rfl

@[simp] theorem name_take_self (c : Custody ι ν) (i : ι) (x : ν) :
    (c.take i x).name i = some x := Function.update_self ..

theorem name_take_of_ne {i j : ι} (h : j ≠ i) (x : ν) : (c.take i x).name j = c.name j :=
  Function.update_of_ne h ..

theorem Kept.take (h : c.Kept) {i : ι} {x : ν} (hi : c.name i = none)
    (hfree : c.ledger.holder x = none) : (c.take i x).Kept := by
  -- nobody else has the new name, as it was free
  have hother : ∀ j y, j ≠ i → (c.take i x).name j = some y → c.name j = some y ∧ y ≠ x := by
    intro j y hji hj
    rw [name_take_of_ne hji] at hj
    obtain ⟨r, hr⟩ := h.held j y hj
    refine ⟨hj, fun heq => ?_⟩
    rw [heq, hfree] at hr
    cases hr
  refine ⟨h.sound.acquire hfree, ?_, ?_, ?_⟩
  · intro j y hj
    by_cases hji : j = i
    · rw [hji, name_take_self, Option.some.injEq] at hj
      rw [← hj]
      exact ⟨_, Ledger.holder_acquire_self c.ledger x⟩
    · obtain ⟨hj, hyx⟩ := hother j y hji hj
      obtain ⟨r, hr⟩ := h.held j y hj
      exact ⟨r, (Ledger.holder_acquire_of_ne hyx).trans hr⟩
  · intro j k y hj hk
    by_cases hji : j = i <;> by_cases hki : k = i
    · rw [hji, hki]
    · rw [hji, name_take_self] at hj
      exact absurd (Option.some.inj hj).symm (hother k y hki hk).2
    · rw [hki, name_take_self] at hk
      exact absurd (Option.some.inj hk).symm (hother j y hji hj).2
    · exact h.apart j k y (hother j y hji hj).1 (hother k y hki hk).1
  · intro y r hy
    by_cases hyx : y = x
    · exact ⟨i, hyx ▸ name_take_self c i x⟩
    · obtain ⟨j, hj⟩ := h.owned y r ((Ledger.holder_acquire_of_ne hyx).symm.trans hy)
      have hji : j ≠ i := fun heq => by
        rw [heq, hi] at hj
        cases hj
      exact ⟨j, (name_take_of_ne hji x).trans hj⟩

/-- The owner releases what it has. -/
def drop (c : Custody ι ν) (i : ι) : Custody ι ν :=
  match c.name i with
  | none => c
  | some x => { name := Function.update c.name i none, ledger := c.ledger.release x }

theorem drop_of_none {i : ι} (h : c.name i = none) : c.drop i = c := by
  simp only [drop, h]

theorem drop_of_some {i : ι} {x : ν} (h : c.name i = some x) :
    c.drop i = { name := Function.update c.name i none, ledger := c.ledger.release x } := by
  simp only [drop, h]

@[simp] theorem name_drop_self (c : Custody ι ν) (i : ι) : (c.drop i).name i = none := by
  cases h : c.name i with
  | none => rw [drop_of_none h, h]
  | some x =>
      rw [drop_of_some h]
      exact Function.update_self ..

theorem name_drop_of_ne {i j : ι} (h : j ≠ i) : (c.drop i).name j = c.name j := by
  cases hi : c.name i with
  | none => rw [drop_of_none hi]
  | some x =>
      rw [drop_of_some hi]
      exact Function.update_of_ne h ..

theorem Lost.drop {x : ν} {r : Nat} (h : c.Lost x r) (i : ι) : (c.drop i).Lost x r := by
  refine ⟨?_, fun j hj => ?_⟩
  · cases hi : c.name i with
    | none =>
        rw [drop_of_none hi]
        exact h.outstanding
    | some y =>
        rw [drop_of_some hi]
        exact h.outstanding.release fun heq => h.forgotten i (heq ▸ hi)
  · by_cases hji : j = i
    · rw [hji, name_drop_self] at hj
      cases hj
    · rw [name_drop_of_ne hji] at hj
      exact h.forgotten j hj

theorem Kept.drop (h : c.Kept) (i : ι) : (c.drop i).Kept := by
  cases hi : c.name i with
  | none =>
      rw [drop_of_none hi]
      exact h
  | some x =>
      -- the other owners have other names
      have hother : ∀ j y, (c.drop i).name j = some y → c.name j = some y ∧ y ≠ x := by
        intro j y hj
        have hji : j ≠ i := fun heq => by
          rw [heq, name_drop_self] at hj
          cases hj
        rw [name_drop_of_ne hji] at hj
        exact ⟨hj, fun heq => hji (h.apart j i x (heq ▸ hj) hi)⟩
      have hledger : (c.drop i).ledger = c.ledger.release x := by rw [drop_of_some hi]
      obtain ⟨r, hr⟩ := h.held i x hi
      refine ⟨hledger ▸ h.sound.release hr, ?_, ?_, ?_⟩
      · intro j y hj
        obtain ⟨hj, hyx⟩ := hother j y hj
        obtain ⟨r', hr'⟩ := h.held j y hj
        rw [hledger, Ledger.holder_release_of_ne hyx]
        exact ⟨r', hr'⟩
      · exact fun j k y hj hk => h.apart j k y (hother j y hj).1 (hother k y hk).1
      · intro y r' hy
        have hyx : y ≠ x := fun heq => by
          rw [heq, hledger, Ledger.holder_release_self] at hy
          cases hy
        rw [hledger, Ledger.holder_release_of_ne hyx] at hy
        obtain ⟨j, hj⟩ := h.owned y r' hy
        have hji : j ≠ i := fun heq => by
          rw [heq, hi] at hj
          exact hyx (Option.some.inj hj).symm
        exact ⟨j, (name_drop_of_ne hji).trans hj⟩

theorem issued_drop (c : Custody ι ν) (i : ι) : (c.drop i).ledger.issued = c.ledger.issued := by
  cases h : c.name i with
  | none => rw [drop_of_none h]
  | some x =>
      rw [drop_of_some h]
      exact Ledger.issued_release _ x

/-- Some owners release what they have, one after the other. -/
def dropAll (c : Custody ι ν) (is : List ι) : Custody ι ν := is.foldl drop c

theorem Kept.dropAll (h : c.Kept) (is : List ι) : (c.dropAll is).Kept := by
  induction is generalizing c with
  | nil => exact h
  | cons i is ih => exact ih (h.drop i)

theorem issued_dropAll (c : Custody ι ν) (is : List ι) :
    (c.dropAll is).ledger.issued = c.ledger.issued := by
  induction is generalizing c with
  | nil => rfl
  | cons i is ih => exact (ih (c.drop i)).trans (c.issued_drop i)

/-- An owner without a name gets none. -/
theorem name_dropAll_of_none {i : ι} (h : c.name i = none) (is : List ι) :
    (c.dropAll is).name i = none := by
  induction is generalizing c with
  | nil => exact h
  | cons j is ih =>
      refine ih ?_
      by_cases hij : i = j
      · rw [hij, name_drop_self]
      · rw [name_drop_of_ne hij, h]

theorem name_dropAll_of_mem {i : ι} {is : List ι} (h : i ∈ is) (c : Custody ι ν) :
    (c.dropAll is).name i = none := by
  induction is generalizing c with
  | nil => cases h
  | cons j is ih =>
      rcases List.mem_cons.mp h with rfl | hmem
      · exact name_dropAll_of_none (name_drop_self c i) is
      · exact ih hmem (c.drop j)

/-- Once every owner with a name has released it, every resource was released exactly once,
and no release was a stray one. -/
theorem Kept.released_of_dropAll (h : c.Kept) {is : List ι}
    (hall : ∀ i, c.name i ≠ none → i ∈ is) :
    (∀ r < c.ledger.issued, (c.dropAll is).ledger.releases r = 1) ∧
      (c.dropAll is).ledger.strays = 0 := by
  have hkept := h.dropAll is
  refine ⟨fun r hr => hkept.released_of_none (fun i => ?_) ?_, hkept.sound.aimed⟩
  · cases hi : c.name i with
    | none => exact name_dropAll_of_none hi is
    | some x => exact name_dropAll_of_mem (hall i (by rw [hi]; exact Option.some_ne_none x)) c
  · rwa [issued_dropAll]

end Custody

end Machine
