import Fion.Machine.Reach
import Mathlib.Algebra.BigOperators.Fin
import Mathlib.Algebra.Order.Group.Multiset

/-!
# The thread pool

A `ThreadPool` is a queue of tasks behind a mutex, a condition variable and a stop
flag.  Any number of threads call `enqueue`, a fixed number of workers run
`worker_loop`, and one thread runs the destructor.

What a thread does while it holds the mutex is one step.  A worker that waits has
released the mutex, and waking it up, by a notification or spuriously, only lets it
try for the mutex again, so it is `awake` until it has evaluated the predicate once
more.  Between two steps of one thread any other thread may take steps: `enqueue` and
the destructor notify after they have released the mutex, and tasks run without it.

The model has three lists that the source does not name.  They record the tasks that
`enqueue` accepted, those that a worker took off the queue, and those that returned.
No function reads them.
-/

namespace Fion.Network

/-! ## States -/

/-- Where a worker is. -/
inductive Worker (α : Type) where
  /-- In front of the mutex: at the top of the loop, or woken up. -/
  | awake
  /-- In `_cv.wait`, asleep. -/
  | waiting
  /-- Outside the lock, in the task. -/
  | running (task : α)
  /-- `worker_loop` returned. -/
  | exited

/-- The task of a worker, if it runs one. -/
def Worker.task {α : Type} : Worker α → Multiset α
  | .running task => {task}
  | .awake | .waiting | .exited => 0

/-- The worker will take the mutex again before it sleeps. -/
def Worker.Active {α : Type} : Worker α → Prop
  | .awake | .running _ => True
  | .waiting | .exited => False

/-- A notification. -/
def Worker.wake {α : Type} : Worker α → Worker α
  | .waiting => .awake
  | worker => worker

section Wake

variable {α : Type} (worker : Worker α)

theorem Worker.wake_ne_waiting : worker.wake ≠ .waiting := by
  cases worker <;> simp [wake]

theorem Worker.task_wake : worker.wake.task = worker.task := by
  cases worker <;> rfl

theorem Worker.wake_eq_exited_iff : worker.wake = .exited ↔ worker = .exited := by
  cases worker <;> simp [wake]

theorem Worker.active_wake (h : worker.Active) : worker.wake.Active := by
  cases worker with
  | awake | running => trivial
  | waiting | exited => exact h.elim

end Wake

/-- Where a thread that calls `enqueue` is. -/
inductive Producer where
  | idle
  /-- The task is in the queue, and `notify_one` is still to come. -/
  | pushed

/-- Where the destructor is. -/
inductive Destructor where
  | idle
  /-- The flag is set, and `notify_all` is still to come. -/
  | stopping
  /-- The first `joined` threads are joined. -/
  | joining (joined : Nat)
  | done

/-- The class `ThreadPool` with `n` workers, and the threads that use it. -/
structure ThreadPool (α ι : Type) (n : Nat) where
  tasks : List α := []
  stop : Bool := false
  workers : Fin n → Worker α := fun _ => .awake
  producers : ι → Producer := fun _ => .idle
  destructor : Destructor := .idle
  accepted : List α := []
  taken : List α := []
  finished : List α := []

namespace ThreadPool

variable {α ι : Type} {n : Nat}

/-- The tasks that run. -/
def running (s : ThreadPool α ι n) : Multiset α := ∑ i, (s.workers i).task

def setWorker (s : ThreadPool α ι n) (i : Fin n) (worker : Worker α) : ThreadPool α ι n :=
  { s with workers := Function.update s.workers i worker }

def setProducer [DecidableEq ι] (s : ThreadPool α ι n) (p : ι) (producer : Producer) :
    ThreadPool α ι n :=
  { s with producers := Function.update s.producers p producer }

def setDestructor (s : ThreadPool α ι n) (destructor : Destructor) : ThreadPool α ι n :=
  { s with destructor := destructor }

/-! ## What the threads do under the lock -/

/-- The locked part of `enqueue`. -/
def enqueue [DecidableEq ι] (s : ThreadPool α ι n) (p : ι) (task : α) : ThreadPool α ι n :=
  if s.stop then s
  else { s with tasks := s.tasks ++ [task], accepted := s.accepted ++ [task] }.setProducer p .pushed

/-- The predicate that `_cv.wait` evaluates. -/
def predicate (s : ThreadPool α ι n) : Bool := s.stop || !s.tasks.isEmpty

/-- The locked part of `worker_loop`. -/
def workerLoop (s : ThreadPool α ι n) (i : Fin n) : ThreadPool α ι n :=
  if !s.predicate then s.setWorker i .waiting
  else if s.stop && s.tasks.isEmpty then s.setWorker i .exited
  else
    match s.tasks with
    | [] => s.setWorker i .awake
    | task :: rest =>
        { s with tasks := rest, taken := s.taken ++ [task] }.setWorker i (.running task)

/-- The locked part of the destructor. -/
def setStop (s : ThreadPool α ι n) : ThreadPool α ι n :=
  { s with stop := true }.setDestructor .stopping

/-- `notify_all`. -/
def notifyAll (s : ThreadPool α ι n) : ThreadPool α ι n :=
  { s with workers := fun i => (s.workers i).wake }

/-- A task returns. -/
def finish (s : ThreadPool α ι n) (i : Fin n) (task : α) : ThreadPool α ι n :=
  { s with finished := s.finished ++ [task] }.setWorker i .awake

/-! ## Steps -/

/-- One step of one thread. -/
inductive Step [DecidableEq ι] : ThreadPool α ι n → ThreadPool α ι n → Prop where
  /-- `enqueue` takes the mutex and releases it. -/
  | enqueue {s : ThreadPool α ι n} {p : ι} (task : α) :
      s.producers p = .idle →
      Step s (s.enqueue p task)
  /-- `notify_one` wakes one of the workers that wait. -/
  | notifyOne {s : ThreadPool α ι n} {p : ι} {i : Fin n} :
      s.producers p = .pushed →
      s.workers i = .waiting →
      Step s ((s.setWorker i .awake).setProducer p .idle)
  /-- `notify_one` finds no worker that waits. -/
  | notifyNone {s : ThreadPool α ι n} {p : ι} :
      s.producers p = .pushed →
      (∀ i, s.workers i ≠ .waiting) →
      Step s (s.setProducer p .idle)
  /-- A worker wakes up without a notification. -/
  | wake {s : ThreadPool α ι n} {i : Fin n} :
      s.workers i = .waiting →
      Step s (s.setWorker i .awake)
  /-- A worker takes the mutex and releases it. -/
  | lock {s : ThreadPool α ι n} {i : Fin n} :
      s.workers i = .awake →
      Step s (s.workerLoop i)
  /-- The task of a worker returns. -/
  | finish {s : ThreadPool α ι n} {i : Fin n} {task : α} :
      s.workers i = .running task →
      Step s (s.finish i task)
  /-- The destructor takes the mutex and releases it. -/
  | stop {s : ThreadPool α ι n} :
      s.destructor = .idle →
      Step s s.setStop
  /-- The destructor calls `notify_all`. -/
  | notifyAll {s : ThreadPool α ι n} :
      s.destructor = .stopping →
      Step s (s.notifyAll.setDestructor (.joining 0))
  /-- The destructor joins the next thread. -/
  | join {s : ThreadPool α ι n} {k : Nat} (hk : k < n) :
      s.destructor = .joining k →
      s.workers ⟨k, hk⟩ = .exited →
      Step s (s.setDestructor (.joining (k + 1)))
  /-- All threads are joined. -/
  | joined {s : ThreadPool α ι n} :
      s.destructor = .joining n →
      Step s (s.setDestructor .done)

/-- The states that a pool with `n` workers passes through. -/
def Reached [DecidableEq ι] (s : ThreadPool α ι n) : Prop := Machine.Reachable (· = {}) Step s

/-! ## What the locked parts do -/

/-- With the flag set, `enqueue` returns without doing anything. -/
theorem enqueue_of_stop [DecidableEq ι] {s : ThreadPool α ι n} (h : s.stop = true) (p : ι)
    (task : α) : s.enqueue p task = s := if_pos h

/-- Without it, the task goes to the end of the queue. -/
theorem enqueue_of_not_stop [DecidableEq ι] {s : ThreadPool α ι n} (h : s.stop = false) (p : ι)
    (task : α) : s.enqueue p task =
      { s with tasks := s.tasks ++ [task], accepted := s.accepted ++ [task] }.setProducer p
        .pushed :=
  if_neg (by rw [h]; exact Bool.false_ne_true)

/-- A worker that takes the mutex goes to sleep on an empty queue, exits when the
queue is empty and the flag is set, and takes the first task else. -/
theorem workerLoop_cases (s : ThreadPool α ι n) (i : Fin n) :
    (s.tasks = [] ∧ s.stop = false ∧ s.workerLoop i = s.setWorker i .waiting) ∨
    (s.tasks = [] ∧ s.stop = true ∧ s.workerLoop i = s.setWorker i .exited) ∨
    ∃ task rest, s.tasks = task :: rest ∧ s.workerLoop i =
      { s with tasks := rest, taken := s.taken ++ [task] }.setWorker i (.running task) := by
  unfold workerLoop predicate
  cases htasks : s.tasks with
  | nil =>
      cases hstop : s.stop with
      | false => exact .inl ⟨rfl, rfl, rfl⟩
      | true => exact .inr (.inl ⟨rfl, rfl, rfl⟩)
  | cons task rest => exact .inr (.inr ⟨task, rest, rfl, by simp⟩)

end ThreadPool

end Fion.Network
