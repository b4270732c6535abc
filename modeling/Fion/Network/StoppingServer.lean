import Fion.Machine.Fairness
import Fion.Network.Loops

/-!
# A server and its threads, while it is stopped

`Server::stop` clears the flag of the server, closes the listener and joins the accept
thread.  Then it stops one pool after the other: it clears the flag of the loop of the pool
and joins the thread of the loop.  Meanwhile the accept thread and the loops run on.

Of the accept thread and the loops only what has to do with their end is modelled here:
where they are, and the events that a loop still has to call its callback for.
-/

namespace Fion.Network

open Cpp (Exn)

/-! ## The threads -/

namespace PoolLoop

/-- A step of the thread of a loop, whatever the poller returns and the callback does. -/
inductive Turn : PoolLoop → PoolLoop → Prop where
  | exchange {l : PoolLoop} :
      l.point = .entered →
      Turn l l.exchange
  | load {l : PoolLoop} :
      l.point = .handling [] →
      Turn l l.load
  | poll {l : PoolLoop} (wait : WaitResult) :
      l.point = .polling →
      Turn l (l.poll wait)
  | callback {l : PoolLoop} {event : PollerEventData} {rest : List PollerEventData}
      (result : Except Exn Unit) :
      l.point = .handling (event :: rest) →
      Turn l (l.handled event rest result)

end PoolLoop

/-- Where the accept thread is. -/
inductive AcceptPoint where
  /-- At the condition of its loop. -/
  | testing
  /-- In the body: it accepts and hands out a connection, or sleeps. -/
  | accepting
  | returned

/-- Where the thread is that calls `Server::stop`. -/
inductive Stopper where
  | idle
  /-- The flag is cleared, and the listener is still to be closed. -/
  | closing
  | joiningAccept
  /-- The first pools are stopped, so many. -/
  | stopping (pools : Nat)
  /-- The flag of the next loop is cleared, and its thread is still to be joined. -/
  | joining (pool : Nat)
  | done

/-- A server with its threads, between `start` and the end of `stop`. -/
structure StoppingServer (n : Nat) where
  running : Bool := true
  acceptThread : AcceptPoint := .testing
  loops : Fin n → PoolLoop := fun _ => {}
  stopper : Stopper := .idle

namespace StoppingServer

variable {n : Nat}

def setAccept (s : StoppingServer n) (acceptThread : AcceptPoint) : StoppingServer n :=
  { s with acceptThread := acceptThread }

def setLoop (s : StoppingServer n) (i : Fin n) (l : PoolLoop) : StoppingServer n :=
  { s with loops := Function.update s.loops i l }

def setStopper (s : StoppingServer n) (stopper : Stopper) : StoppingServer n :=
  { s with stopper := stopper }

/-- The condition of `accept_loop`. -/
def acceptLoad (s : StoppingServer n) : StoppingServer n :=
  if s.running then s.setAccept .accepting else s.setAccept .returned

/-- The exchange of `Server::stop`: a server that is not running is left alone. -/
def stop (s : StoppingServer n) : StoppingServer n :=
  if s.running then { s with running := false }.setStopper .closing else s.setStopper .done

/-- The threads of the server, and the one that owns it. -/
inductive Thread (n : Nat) where
  | owner
  | accept
  | loop (i : Fin n)

/-- What a thread does when it is its turn. -/
inductive Acts : Thread n → StoppingServer n → StoppingServer n → Prop where
  | loop {s : StoppingServer n} {i : Fin n} {l : PoolLoop} :
      (s.loops i).Turn l →
      Acts (.loop i) s (s.setLoop i l)
  | acceptLoad {s : StoppingServer n} :
      s.acceptThread = .testing →
      Acts .accept s s.acceptLoad
  | accepted {s : StoppingServer n} :
      s.acceptThread = .accepting →
      Acts .accept s (s.setAccept .testing)
  | stop {s : StoppingServer n} :
      s.stopper = .idle →
      Acts .owner s s.stop
  /-- The listener is closed, and the accept thread gets no connection any more. -/
  | close {s : StoppingServer n} :
      s.stopper = .closing →
      Acts .owner s (s.setStopper .joiningAccept)
  | joinAccept {s : StoppingServer n} :
      s.stopper = .joiningAccept →
      s.acceptThread = .returned →
      Acts .owner s (s.setStopper (.stopping 0))
  /-- `Pool::stop` clears the flag of the loop. -/
  | store {s : StoppingServer n} {i : Fin n} :
      s.stopper = .stopping i →
      Acts .owner s ((s.setLoop i (s.loops i).stop).setStopper (.joining i))
  | join {s : StoppingServer n} {i : Fin n} :
      s.stopper = .joining i →
      (s.loops i).point = .returned →
      Acts .owner s (s.setStopper (.stopping (i + 1)))
  | finish {s : StoppingServer n} :
      s.stopper = .stopping n →
      Acts .owner s (s.setStopper .done)

/-- One step of one of the threads. -/
def Step (s s' : StoppingServer n) : Prop := ∃ thread, Acts thread s s'

/-- The threads of a server that has been started take turns, each gets its own, and its
owner calls `stop`. -/
def FairRun (run : Nat → StoppingServer n) : Prop :=
  run 0 = {} ∧ Machine.EndlessRun Step run ∧ ∀ thread, Machine.WeaklyFair (Acts thread) run

/-- `stop` waits for a thread that has not entered its loop. -/
def Lost (s : StoppingServer n) : Prop :=
  ∃ i : Fin n, s.stopper = .joining i ∧ (s.loops i).point = .entered

/-! ## What the steps leave alone -/

@[simp] theorem loops_setLoop_self (s : StoppingServer n) (i : Fin n) (l : PoolLoop) :
    (s.setLoop i l).loops i = l := by
  simp [setLoop]

theorem loops_setLoop_of_ne {i j : Fin n} (h : j ≠ i) (s : StoppingServer n) (l : PoolLoop) :
    (s.setLoop i l).loops j = s.loops j := by
  simp [setLoop, h]

/-- The test of the accept thread only moves this thread. -/
theorem acceptLoad_eq (s : StoppingServer n) :
    ∃ point, s.acceptLoad = s.setAccept point ∧
      (s.running = false → point = .returned) := by
  cases hrunning : s.running with
  | true => exact ⟨.accepting, if_pos hrunning, Bool.noConfusion⟩
  | false => exact ⟨.returned, if_neg (by rw [hrunning]; exact Bool.false_ne_true), fun _ => rfl⟩

/-- A step of a loop that is not the owner's leaves everything but the loop alone. -/
theorem loop_of_step {s s' : StoppingServer n} (h : s.Step s') (i : Fin n) :
    s'.loops i = s.loops i ∨ (s.loops i).Turn (s'.loops i) ∨
      s.stopper = .stopping i ∧ s'.loops i = (s.loops i).stop ∧ s'.stopper = .joining i := by
  obtain ⟨thread, hact⟩ := h
  cases hact with
  | @loop _ j l hturn =>
      by_cases hi : i = j
      · subst hi
        exact .inr (.inl (by rw [loops_setLoop_self]; exact hturn))
      · exact .inl (loops_setLoop_of_ne hi s l)
  | acceptLoad =>
      obtain ⟨point, heq, -⟩ := s.acceptLoad_eq
      rw [heq]
      exact .inl rfl
  | stop =>
      refine .inl ?_
      rw [stop]
      split <;> rfl
  | @store _ j hstopping =>
      by_cases hi : i = j
      · subst hi
        exact .inr (.inr ⟨hstopping, loops_setLoop_self .., rfl⟩)
      · exact .inl (loops_setLoop_of_ne hi s _)
  | accepted | close | joinAccept | join | finish => exact .inl rfl

/-- Only the owner moves `stop`, which alone touches the flag of the server. -/
theorem stopper_of_step {s s' : StoppingServer n} (h : s.Step s') :
    s'.stopper = s.stopper ∧ s'.running = s.running ∨ Acts .owner s s' := by
  obtain ⟨thread, hact⟩ := h
  cases thread with
  | owner => exact .inr hact
  | accept =>
      refine .inl ?_
      cases hact with
      | acceptLoad =>
          obtain ⟨point, heq, -⟩ := s.acceptLoad_eq
          rw [heq]
          exact ⟨rfl, rfl⟩
      | accepted => exact ⟨rfl, rfl⟩
  | loop i =>
      cases hact with
      | loop => exact .inl ⟨rfl, rfl⟩

/-- A server that is running is stopped by `stop`. -/
theorem stop_of_running {s : StoppingServer n} (h : s.running = true) :
    s.stop = { s with running := false }.setStopper .closing := if_pos h

end StoppingServer

/-! ## The loops -/

namespace PoolLoop

variable {l l' : PoolLoop}

/-- Behind the exchange only the condition of the loop reads the flag, and nobody sets it. -/
theorem Turn.moves (h : l.Turn l') :
    (l.point = .entered ∧ l' = l.exchange) ∨ (l.point = .handling [] ∧ l' = l.load) ∨
      (l.point = .polling ∧ l'.running = l.running ∧ ∃ events, l'.point = .handling events) ∨
      ∃ event rest rest', l.point = .handling (event :: rest) ∧ l'.running = l.running ∧
        l'.point = .handling rest' ∧ rest'.length ≤ rest.length := by
  cases h with
  | exchange hpoint => exact .inl ⟨hpoint, rfl⟩
  | load hpoint => exact .inr (.inl ⟨hpoint, rfl⟩)
  | poll wait hpoint =>
      refine .inr (.inr (.inl ⟨hpoint, ?_⟩))
      rw [PoolLoop.poll]
      split
      · exact ⟨rfl, _, rfl⟩
      · exact ⟨rfl, _, rfl⟩
  | @callback event rest result hpoint =>
      refine .inr (.inr (.inr ?_))
      cases result with
      | ok _ => exact ⟨event, rest, rest, hpoint, rfl, rfl, Nat.le_refl _⟩
      | error e => exact ⟨event, rest, [], hpoint, rfl, rfl, Nat.zero_le _⟩

/-- A thread that has not returned can take a step. -/
theorem exists_turn (h : l.point ≠ .returned) : ∃ l', l.Turn l' := by
  cases hpoint : l.point with
  | entered => exact ⟨_, .exchange hpoint⟩
  | polling => exact ⟨_, .poll .interrupted hpoint⟩
  | handling rest =>
      cases rest with
      | nil => exact ⟨_, .load hpoint⟩
      | cons event rest => exact ⟨_, .callback (.ok ()) hpoint⟩
  | returned => exact absurd hpoint h

/-- A thread that has returned cannot. -/
theorem not_turn_of_returned (h : l.point = .returned) : ¬ l.Turn l' := by
  intro hturn
  rcases hturn.moves with ⟨hpoint, -⟩ | ⟨hpoint, -⟩ | ⟨hpoint, -⟩ | ⟨_, _, _, hpoint, -⟩ <;>
  · rw [h] at hpoint
    cases hpoint

end PoolLoop

/-! ## Runs -/

/-- How many threads of loops are joined. -/
def Stopper.joined (n : Nat) : Stopper → Nat
  | .idle | .closing | .joiningAccept => 0
  | .stopping k | .joining k => k
  | .done => n

/-- The accept thread is joined. -/
def Stopper.PastAccept : Stopper → Prop
  | .idle | .closing | .joiningAccept => False
  | .stopping _ | .joining _ | .done => True

namespace StoppingServer

variable {n : Nat}

/-- What holds in every reachable state. -/
structure Inv (s : StoppingServer n) : Prop where
  /-- Only a thread that has entered its loop has set its flag. -/
  unset : ∀ i, (s.loops i).point = .entered → (s.loops i).running = false
  /-- `stop` clears the flag of the server first. -/
  stopped : s.running = true ↔ s.stopper = .idle
  accept : s.stopper.PastAccept → s.acceptThread = .returned
  loops : ∀ i : Fin n, i.val < s.stopper.joined n → (s.loops i).point = .returned
  bound : s.stopper.joined n ≤ n
  joining : ∀ k, s.stopper = .joining k → k < n

theorem inv_start : ({} : StoppingServer n).Inv where
  unset := fun _ _ => rfl
  stopped := iff_of_true rfl rfl
  accept := False.elim
  loops := fun _ hi => absurd hi (Nat.not_lt_zero _)
  bound := Nat.zero_le n
  joining := fun _ hjoining => by cases hjoining

/-- The flag of a loop that has not been entered is not set. -/
theorem unset_of_step {s s' : StoppingServer n} (h : s.Inv) (hstep : s.Step s') (i : Fin n)
    (hpoint : (s'.loops i).point = .entered) : (s'.loops i).running = false := by
  rcases loop_of_step hstep i with hsame | hturn | ⟨-, hstop, -⟩
  · rw [hsame] at hpoint ⊢
    exact h.unset i hpoint
  · rcases hturn.moves with ⟨-, heq⟩ | ⟨-, heq⟩ | ⟨-, -, _, hpoint'⟩ | ⟨_, _, _, -, -, hpoint', -⟩
    · rw [heq, PoolLoop.exchange] at hpoint
      split at hpoint <;> cases hpoint
    · rw [heq, PoolLoop.load] at hpoint
      split at hpoint <;> cases hpoint
    · rw [hpoint] at hpoint'
      cases hpoint'
    · rw [hpoint] at hpoint'
      cases hpoint'
  · rw [hstop]
    rfl

/-- A thread of a loop that has returned has returned for good. -/
theorem returned_of_step {s s' : StoppingServer n} (hstep : s.Step s') {i : Fin n}
    (h : (s.loops i).point = .returned) : (s'.loops i).point = .returned := by
  rcases loop_of_step hstep i with hsame | hturn | ⟨-, hstop, -⟩
  · rw [hsame, h]
  · exact absurd hturn (PoolLoop.not_turn_of_returned h)
  · rw [hstop]
    exact h

/-- So has the accept thread. -/
theorem accept_of_step {s s' : StoppingServer n} (hstep : s.Step s')
    (h : s.acceptThread = .returned) : s'.acceptThread = .returned := by
  obtain ⟨thread, hact⟩ := hstep
  cases hact with
  | acceptLoad htesting => rw [h] at htesting; cases htesting
  | accepted haccepting => rw [h] at haccepting; cases haccepting
  | stop =>
      rw [stop]
      split <;> exact h
  | loop | close | joinAccept | store | join | finish => exact h

theorem inv_step {s s' : StoppingServer n} (h : s.Inv) (hstep : s.Step s') : s'.Inv := by
  have hunset := unset_of_step h hstep
  have hloops : ∀ i : Fin n, i.val < s.stopper.joined n → (s'.loops i).point = .returned :=
    fun i hi => returned_of_step hstep (h.loops i hi)
  have haccept : s.stopper.PastAccept → s'.acceptThread = .returned :=
    fun hpast => accept_of_step hstep (h.accept hpast)
  rcases stopper_of_step hstep with ⟨hsame, hrunning⟩ | hact
  · refine ⟨hunset, ?_, ?_, ?_, ?_, ?_⟩ <;> rw [hsame]
    · rw [hrunning]
      exact h.stopped
    · exact haccept
    · exact hloops
    · exact h.bound
    · exact h.joining
  · -- behind its exchange, `stop` finds the flag of the server cleared
    have hcleared : s.stopper ≠ .idle → s.running ≠ true := fun hne htrue =>
      hne (h.stopped.mp htrue)
    cases hact with
    | stop hidle =>
        rw [stop_of_running (h.stopped.mpr hidle)] at hunset ⊢
        exact ⟨hunset, iff_of_false Bool.noConfusion Stopper.noConfusion, False.elim,
          fun _ hi => absurd hi (Nat.not_lt_zero _), Nat.zero_le n,
          fun _ hjoining => by cases hjoining⟩
    | close hclosing =>
        refine ⟨hunset, iff_of_false (hcleared ?_) Stopper.noConfusion, False.elim,
          fun _ hi => absurd hi (Nat.not_lt_zero _), Nat.zero_le n,
          fun _ hjoining => by cases hjoining⟩
        rw [hclosing]
        exact Stopper.noConfusion
    | joinAccept hjoining hreturned =>
        refine ⟨hunset, iff_of_false (hcleared ?_) Stopper.noConfusion, fun _ => hreturned,
          fun _ hi => absurd hi (Nat.not_lt_zero _), Nat.zero_le n,
          fun _ hjoining => by cases hjoining⟩
        rw [hjoining]
        exact Stopper.noConfusion
    | @store _ i hstopping =>
        rw [hstopping] at hloops haccept
        refine ⟨hunset, iff_of_false (hcleared ?_) Stopper.noConfusion,
          fun _ => haccept trivial, hloops, i.isLt.le, fun k hjoining => ?_⟩
        · rw [hstopping]
          exact Stopper.noConfusion
        · cases hjoining
          exact i.isLt
    | @join _ i hjoining hreturned =>
        rw [hjoining] at hloops haccept
        refine ⟨hunset, iff_of_false (hcleared ?_) Stopper.noConfusion,
          fun _ => haccept trivial, fun j hj => ?_, i.isLt, fun _ hjoining => by cases hjoining⟩
        · rw [hjoining]
          exact Stopper.noConfusion
        · cases Nat.lt_succ_iff_lt_or_eq.mp hj with
          | inl hless => exact hloops j hless
          | inr heq =>
              obtain rfl := Fin.ext heq
              exact hreturned
    | finish hstopping =>
        rw [hstopping] at hloops haccept
        refine ⟨hunset, iff_of_false (hcleared ?_) Stopper.noConfusion,
          fun _ => haccept trivial, hloops, Nat.le_refl n, fun _ hjoining => by cases hjoining⟩
        rw [hstopping]
        exact Stopper.noConfusion

/-- The invariant holds all along a run. -/
theorem FairRun.inv {run : Nat → StoppingServer n} (h : FairRun run) (k : Nat) :
    (run k).Inv := by
  have hstart : (run 0).Inv := by
    rw [h.1]
    exact inv_start
  exact h.2.1.always Inv (fun _ _ hinv hstep => inv_step hinv hstep) hstart k.zero_le

end StoppingServer

end Fion.Network
