import Fion.Machine.Reach

/-!
# A stop request and the thread it is for

`Pool::run` creates the thread that runs `EventLoop::run`, and `Pool::stop` clears
the flag of the loop and joins that thread.  `EventLoop::run` sets the flag itself, so
this happens in the new thread, at any time after `Pool::run` has returned.

The flag is atomic: one access to it is one step, and the steps of the two threads
come in any order.  A run is a list of such steps, each one that its thread can take.

The state counts the iterations that the loop has started.  No function reads this.
-/

namespace Fion.Network

/-! ## States -/

/-- Where the thread of the loop is. -/
inductive LoopThread where
  | none
  /-- The thread exists and has not taken a step. -/
  | created
  /-- At the condition of the loop. -/
  | testing
  /-- In `poll` or in the callbacks. -/
  | iterating
  | returned
deriving DecidableEq

/-- The thread returns within the given number of its own steps, if the flag is not
set. -/
def LoopThread.Within : LoopThread → Nat → Prop
  | .returned, _ => True
  | .testing, k => 1 ≤ k
  | .iterating, k => 2 ≤ k
  | .none, _ | .created, _ => False

/-- Where the thread is that called `Pool::run`, and calls `Pool::stop`. -/
inductive LoopOwner where
  | idle
  /-- The flag is cleared, and `join` is still to come. -/
  | stopping
deriving DecidableEq

/-- The event loop of a pool and its thread. -/
structure EventLoop where
  running : Bool := false
  thread : LoopThread := .none
  owner : LoopOwner := .idle
  iterations : Nat := 0

/-- One step of one of the two threads. -/
inductive LoopStep where
  /-- `Pool::run`. -/
  | run
  /-- The exchange at the top of `EventLoop::run`. -/
  | exchange
  /-- The condition of the loop. -/
  | load
  /-- The body of the loop ends, or throws what the loop catches. -/
  | iterate
  /-- `EventLoop::stop`, as `Pool::stop` calls it. -/
  | store
  /-- `Pool::stop` joins the thread, which waits for it to return.  A thread that is
  joined already has returned. -/
  | join

namespace EventLoop

/-! ## What the steps do -/

/-- The exchange of `EventLoop::run`: with the flag set already, the loop is not
entered. -/
def exchange (s : EventLoop) : EventLoop :=
  if s.running then { s with thread := .returned }
  else { s with running := true, thread := .testing }

/-- The condition of the loop in `EventLoop::run`. -/
def load (s : EventLoop) : EventLoop :=
  if s.running then { s with thread := .iterating, iterations := s.iterations + 1 }
  else { s with thread := .returned }

/-- `EventLoop::stop`. -/
def stop (s : EventLoop) : EventLoop := { s with running := false }

def next (s : EventLoop) : LoopStep → EventLoop
  | .run => { s with thread := .created }
  | .exchange => s.exchange
  | .load => s.load
  | .iterate => { s with thread := .testing }
  | .store => { s.stop with owner := .stopping }
  | .join => { s with owner := .idle }

/-- The threads can take the step: `run` is called once, and `stop` after it. -/
def Admitted (s : EventLoop) : LoopStep → Prop
  | .run => s.thread = .none ∧ s.owner = .idle
  | .exchange => s.thread = .created
  | .load => s.thread = .testing
  | .iterate => s.thread = .iterating
  | .store => s.thread ≠ .none ∧ s.owner = .idle
  | .join => s.owner = .stopping ∧ s.thread = .returned

instance (s : EventLoop) (a : LoopStep) : Decidable (s.Admitted a) := by
  cases a <;> unfold Admitted <;> infer_instance

/-- There is always a step to take, once `run` has been called. -/
theorem exists_admitted {s : EventLoop} (hnone : s.thread ≠ .none) : ∃ a, s.Admitted a := by
  cases hthread : s.thread with
  | none => exact absurd hthread hnone
  | created => exact ⟨.exchange, hthread⟩
  | testing => exact ⟨.load, hthread⟩
  | iterating => exact ⟨.iterate, hthread⟩
  | returned =>
      cases howner : s.owner with
      | idle => exact ⟨.store, hnone, howner⟩
      | stopping => exact ⟨.join, howner, hthread⟩

/-! ## The end of the loop -/

/-- The flag is cleared for good, and nobody but the thread takes a step until it has
returned. -/
structure Ending (s : EventLoop) (k : Nat) : Prop where
  running : s.running = false
  within : s.thread.Within k
  owner : s.owner = .stopping ∨ s.thread = .returned

/-- A step brings the end of the loop nearer, and starts no iteration. -/
theorem Ending.step {s : EventLoop} {k : Nat} (h : s.Ending k) {a : LoopStep}
    (ha : s.Admitted a) : (s.next a).Ending (k - 1) ∧ (s.next a).iterations = s.iterations := by
  obtain ⟨hrunning, hwithin, howner⟩ := h
  cases a with
  | run =>
      rw [ha.1] at hwithin
      exact hwithin.elim
  | exchange =>
      rw [show s.thread = .created from ha] at hwithin
      exact hwithin.elim
  | load =>
      have hload : s.load = { s with thread := .returned } :=
        if_neg (by rw [hrunning]; exact Bool.false_ne_true)
      rw [show s.next .load = s.load from rfl, hload]
      exact ⟨⟨hrunning, trivial, .inr rfl⟩, rfl⟩
  | iterate =>
      have hthread : s.thread = .iterating := ha
      rw [hthread] at hwithin howner
      have hstopping := howner.resolve_right LoopThread.noConfusion
      exact ⟨⟨hrunning, Nat.le_sub_one_of_lt hwithin, .inl hstopping⟩, rfl⟩
  | store =>
      have hreturned : s.thread = .returned :=
        howner.resolve_left (by rw [ha.2]; exact LoopOwner.noConfusion)
      refine ⟨⟨rfl, ?_, .inl rfl⟩, rfl⟩
      show s.thread.Within (k - 1)
      rw [hreturned]
      trivial
  | join =>
      refine ⟨⟨hrunning, ?_, .inr ha.2⟩, rfl⟩
      show s.thread.Within (k - 1)
      rw [ha.2]
      trivial

/-- So do several. -/
theorem Ending.run {s : EventLoop} {k : Nat} (h : s.Ending k) {as : List LoopStep}
    (has : Machine.AlwaysStep next Admitted s as) :
    (as.foldl next s).Ending (k - as.length) ∧
      (as.foldl next s).iterations = s.iterations := by
  induction as generalizing s k with
  | nil => exact ⟨h, rfl⟩
  | cons a as ih =>
      obtain ⟨hnext, hiterations⟩ := h.step has.1
      obtain ⟨hend, hsame⟩ := ih hnext has.2
      rw [Nat.sub_sub, Nat.add_comm] at hend
      exact ⟨hend, hsame.trans hiterations⟩

/-! ## Stop requests -/

/-- Whatever the threads do from here on, the flag is not set again, no iteration is
started, and they come to a state in which `join` does not wait: there is a next step,
and after two steps the thread has returned. -/
structure Ends (s : EventLoop) : Prop where
  running : ∀ as, Machine.AlwaysStep next Admitted s as → (as.foldl next s).running = false
  iterations : ∀ as, Machine.AlwaysStep next Admitted s as →
    (as.foldl next s).iterations = s.iterations
  progress : ∀ as, Machine.AlwaysStep next Admitted s as → ∃ a, (as.foldl next s).Admitted a
  returned : ∀ as, Machine.AlwaysStep next Admitted s as → 2 ≤ as.length →
    (as.foldl next s).thread = .returned

/-- A stop request that is under way is not lost. -/
def StopKept (s : EventLoop) : Prop := s.owner = .stopping → s.Ends

/-- The flag is cleared after the thread has set it. -/
def AfterExchange (s : EventLoop) : LoopStep → Prop
  | .store => s.thread ≠ .created
  | .run | .exchange | .load | .iterate | .join => True

/-- A loop that ends in two steps keeps the request. -/
theorem Ending.ends {s : EventLoop} (h : s.Ending 2) : s.Ends where
  running := fun _ has => (h.run has).1.running
  iterations := fun _ has => (h.run has).2
  progress := fun _ has => exists_admitted fun hnone => by
    have hwithin := (h.run has).1.within
    rw [hnone] at hwithin
    exact hwithin
  returned := fun as has hlength => by
    have hwithin := (h.run has).1.within
    rw [Nat.sub_eq_zero_of_le hlength] at hwithin
    cases hthread : (as.foldl next s).thread with
    | returned => rfl
    | none | created | testing | iterating =>
        rw [hthread] at hwithin
        cases hwithin

/-- What is kept from a state on is kept from each later state on. -/
theorem Ends.step {s : EventLoop} (h : s.Ends) {a : LoopStep} (ha : s.Admitted a) :
    (s.next a).Ends where
  running := fun as has => h.running (a :: as) ⟨ha, has⟩
  iterations := fun as has =>
    (h.iterations (a :: as) ⟨ha, has⟩).trans (h.iterations [a] ⟨ha, trivial⟩).symm
  progress := fun as has => h.progress (a :: as) ⟨ha, has⟩
  returned := fun as has hlength => h.returned (a :: as) ⟨ha, has⟩ (Nat.le_succ_of_le hlength)

/-- A stop request is kept when the thread has set the flag before, and lost when it
has not: it sets the flag afterwards. -/
theorem ends_store_iff {s : EventLoop} (hstore : s.Admitted .store) :
    (s.next .store).Ends ↔ s.AfterExchange .store := by
  constructor
  · intro h hcreated
    have hexchange : (s.next .store).Admitted .exchange := hcreated
    have hset := h.running [.exchange] ⟨hexchange, trivial⟩
    cases hset
  · intro hafter
    have hwithin : s.thread.Within 2 := by
      cases hthread : s.thread with
      | none => exact absurd hthread hstore.1
      | created => exact absurd hthread hafter
      | testing => exact Nat.le_succ 1
      | iterating => exact Nat.le_refl 2
      | returned => trivial
    exact Ending.ends ⟨rfl, hwithin, .inl rfl⟩

theorem stopKept_step {s : EventLoop} {a : LoopStep} (ha : s.Admitted a) (h : s.StopKept) :
    (s.next a).StopKept ↔ s.AfterExchange a := by
  cases a with
  | run =>
      have hidle : (s.next .run).owner = .idle := ha.2
      exact iff_of_true (fun hstopping => by rw [hidle] at hstopping; cases hstopping) trivial
  | exchange =>
      have howner : (s.next .exchange).owner = s.owner := by
        show s.exchange.owner = s.owner
        rw [exchange]
        split <;> rfl
      exact iff_of_true (fun hstopping => (h (howner ▸ hstopping)).step ha) trivial
  | load =>
      have howner : (s.next .load).owner = s.owner := by
        show s.load.owner = s.owner
        rw [load]
        split <;> rfl
      exact iff_of_true (fun hstopping => (h (howner ▸ hstopping)).step ha) trivial
  | iterate => exact iff_of_true (fun hstopping => (h hstopping).step ha) trivial
  | store =>
      rw [← ends_store_iff ha]
      exact ⟨fun hkept => hkept rfl, fun hends _ => hends⟩
  | join => exact iff_of_true (fun hstopping => by cases hstopping) trivial

/-- In a run of the two threads, every stop request is kept exactly when none comes
before the thread has set the flag. -/
theorem always_stopKept_iff {as : List LoopStep}
    (h : Machine.AlwaysStep next Admitted {} as) :
    Machine.Always next StopKept {} as ↔ Machine.AlwaysStep next AfterExchange {} as :=
  Machine.always_iff (fun _ _ (_ : True) _ => trivial)
    (fun _ _ _ ha hkept => stopKept_step ha hkept) trivial
    (fun hstopping => by cases hstopping) h

/-- The thread runs one iteration, and the request comes during the next one. -/
theorem usualRun_keeps_stop : Machine.Always next StopKept {}
    [.run, .exchange, .load, .iterate, .load, .store, .iterate, .load, .join] :=
  (always_stopKept_iff (by simp [Machine.AlwaysStep, Admitted, next, exchange, load, stop])).mpr
    (by simp [Machine.AlwaysStep, AfterExchange, next, exchange, load])

/-! ## A stop request that is lost -/

/-- So many iterations of the loop. -/
def rounds : Nat → List LoopStep
  | 0 => []
  | k + 1 => .load :: .iterate :: rounds k

/-- With the flag set the loop runs on, for any number of iterations. -/
theorem runs_on {s : EventLoop} (hrunning : s.running = true) (hthread : s.thread = .testing)
    (k : Nat) : Machine.AlwaysStep next Admitted s (rounds k) ∧
      (rounds k).foldl next s = { s with iterations := s.iterations + k } := by
  induction k generalizing s with
  | zero => exact ⟨trivial, rfl⟩
  | succ k ih =>
      have hload : s.next .load = { s with
          thread := .iterating, iterations := s.iterations + 1 } := if_pos hrunning
      have hround : (s.next .load).next .iterate = { s with iterations := s.iterations + 1 } := by
        rw [hload, next, ← hthread]
      obtain ⟨hadm, hrun⟩ := ih (s := { s with iterations := s.iterations + 1 }) hrunning hthread
      refine ⟨⟨hthread, ?_, ?_⟩, ?_⟩
      · show (s.next .load).thread = .iterating
        rw [hload]
      · rw [hround]
        exact hadm
      · show (rounds k).foldl next ((s.next .load).next .iterate) = _
        rw [hround, hrun]
        simp [Nat.add_assoc, Nat.add_comm 1]

/-- The flag is cleared before the new thread sets it. -/
def earlyStop : List LoopStep := [.run, .store, .exchange]

/-- Then the loop starts any number of iterations, and `join` waits for it. -/
theorem earlyStop_is_lost :
    Machine.AlwaysStep next Admitted {} earlyStop ∧
      ¬ Machine.Always next StopKept {} earlyStop ∧
      ∀ k, Machine.AlwaysStep next Admitted {} (earlyStop ++ rounds k) ∧
        (earlyStop ++ rounds k).foldl next {} =
          { running := true, thread := .testing, owner := .stopping, iterations := k } := by
  refine ⟨⟨⟨rfl, rfl⟩, ⟨LoopThread.noConfusion, rfl⟩, rfl, trivial⟩, fun hkept => ?_, fun k => ?_⟩
  · have hends : Ends { thread := .created, owner := .stopping } := hkept.2.2.1 rfl
    have hset := hends.running [.exchange] ⟨rfl, trivial⟩
    cases hset
  · obtain ⟨hadm, hrun⟩ :=
      runs_on (s := { running := true, thread := .testing, owner := .stopping }) rfl rfl k
    refine ⟨⟨⟨rfl, rfl⟩, ⟨LoopThread.noConfusion, rfl⟩, rfl, hadm⟩, ?_⟩
    rw [List.foldl_append]
    exact hrun.trans (by rw [Nat.zero_add])

end EventLoop

end Fion.Network
