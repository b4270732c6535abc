import Fion.Network.ThreadPool

/-!
# No task is lost and no worker sleeps through one

Everything here follows from one invariant (`Inv`), which every step keeps.  A task
is in the queue from its acceptance on until a worker takes it, and from then on it
is the task of that worker until it returns.  A worker that exited saw the flag and
an empty queue, and after that nothing is accepted any more.

While the queue holds a task, some worker will take the mutex again, or some
`enqueue` has not notified yet.  That call wakes a worker, and if no worker waits by
then, one of them is active, since not all can have exited with a task in the queue.
-/

namespace Fion.Network.ThreadPool

variable {α ι : Type} {n : Nat}

/-- What holds in every reachable state. -/
structure Inv (s : ThreadPool α ι n) : Prop where
  /-- Tasks are taken in the order they were accepted. -/
  order : s.accepted = s.taken ++ s.tasks
  /-- A task that was taken runs or has returned. -/
  once : (s.taken : Multiset α) = s.finished + s.running
  /-- The destructor sets the flag. -/
  stopped : s.stop = true ↔ s.destructor ≠ .idle
  /-- A worker exits when there is nothing left to do. -/
  exited : ∀ i, s.workers i = .exited → s.stop = true ∧ s.tasks = []
  /-- Somebody will look at the queue again while it holds a task. -/
  watched : s.tasks ≠ [] → (∃ i, (s.workers i).Active) ∨ ∃ p, s.producers p = .pushed
  /-- No worker sleeps through the end. -/
  woken : s.stop = true → s.destructor = .stopping ∨ ∀ i, s.workers i ≠ .waiting

/-! ## Workers -/

@[simp] theorem workers_setWorker_self (s : ThreadPool α ι n) (i : Fin n) (worker : Worker α) :
    (s.setWorker i worker).workers i = worker := by
  simp [setWorker]

theorem workers_setWorker_of_ne {i j : Fin n} (hj : j ≠ i) (s : ThreadPool α ι n)
    (worker : Worker α) : (s.setWorker i worker).workers j = s.workers j := by
  simp [setWorker, hj]

/-- Moving a worker exchanges its task. -/
theorem running_setWorker (s : ThreadPool α ι n) (i : Fin n) (worker : Worker α) :
    (s.setWorker i worker).running + (s.workers i).task = s.running + worker.task := by
  have hothers : ∑ j ∈ Finset.univ.erase i, ((s.setWorker i worker).workers j).task =
      ∑ j ∈ Finset.univ.erase i, (s.workers j).task :=
    Finset.sum_congr rfl fun j hj => by
      rw [workers_setWorker_of_ne (Finset.ne_of_mem_erase hj)]
  rw [running, running, ← Finset.add_sum_erase _ _ (Finset.mem_univ i),
    ← Finset.add_sum_erase _ (fun j => (s.workers j).task) (Finset.mem_univ i), hothers,
    workers_setWorker_self]
  ac_rfl

/-- A worker that moves with the task it has, or without one, runs nothing new. -/
theorem running_setWorker_of_task {s : ThreadPool α ι n} {i : Fin n} {worker : Worker α}
    (h : (s.workers i).task = worker.task) : (s.setWorker i worker).running = s.running := by
  have hrunning := running_setWorker s i worker
  rw [h] at hrunning
  exact add_right_cancel hrunning

/-- A property of all workers holds when it holds of the one that moved and of the
others before. -/
theorem forall_workers_setWorker {P : Worker α → Prop} {s : ThreadPool α ι n} {i : Fin n}
    {worker : Worker α} (hself : P worker) (hothers : ∀ j, P (s.workers j)) (j : Fin n) :
    P ((s.setWorker i worker).workers j) := by
  by_cases hj : j = i
  · subst hj
    rw [workers_setWorker_self]
    exact hself
  · rw [workers_setWorker_of_ne hj]
    exact hothers j

/-- A worker that does not exit leaves the others as they are. -/
theorem Inv.exited_setWorker {s : ThreadPool α ι n} (h : s.Inv) {i j : Fin n}
    {worker : Worker α} (hne : worker ≠ .exited)
    (hexited : (s.setWorker i worker).workers j = .exited) : s.stop = true ∧ s.tasks = [] :=
  forall_workers_setWorker (P := fun w => w = .exited → s.stop = true ∧ s.tasks = [])
    (fun heq => absurd heq hne) h.exited j hexited

/-- A worker that does not go to sleep wakes nobody and puts nobody to sleep. -/
theorem Inv.woken_setWorker {s : ThreadPool α ι n} (h : s.Inv) (i : Fin n) {worker : Worker α}
    (hne : worker ≠ .waiting) (hstop : s.stop = true) :
    s.destructor = .stopping ∨ ∀ j, (s.setWorker i worker).workers j ≠ .waiting :=
  (h.woken hstop).imp_right fun hawake =>
    forall_workers_setWorker (P := fun w => w ≠ .waiting) hne hawake

/-! ## Steps -/

/-- A worker that does not sleep, did not exit and runs the same tasks as before keeps
the invariant. -/
theorem Inv.setWorker {s : ThreadPool α ι n} (h : s.Inv) {i : Fin n} {worker : Worker α}
    (hactive : worker.Active) (htask : (s.workers i).task = worker.task) :
    (s.setWorker i worker).Inv where
  order := h.order
  once := by
    rw [running_setWorker_of_task htask]
    exact h.once
  stopped := h.stopped
  exited := fun _ => h.exited_setWorker fun heq => by rw [heq] at hactive; exact hactive.elim
  watched := fun _ => .inl ⟨i, by rw [workers_setWorker_self]; exact hactive⟩
  woken := h.woken_setWorker i fun heq => by rw [heq] at hactive; exact hactive.elim

theorem inv_empty : ({} : ThreadPool α ι n).Inv where
  order := rfl
  once := by simp [running, Worker.task]
  stopped := by simp
  exited := fun _ hexited => by cases hexited
  watched := fun htasks => absurd rfl htasks
  woken := fun hstop => by cases hstop

/-- A task is only accepted while the flag is not set, and then the caller will
notify. -/
theorem inv_enqueue [DecidableEq ι] {s : ThreadPool α ι n} (h : s.Inv) (p : ι) (task : α) :
    (s.enqueue p task).Inv := by
  cases hstop : s.stop with
  | true =>
      rw [enqueue_of_stop hstop]
      exact h
  | false =>
      rw [enqueue_of_not_stop hstop]
      have hunset : s.stop ≠ true := by rw [hstop]; exact Bool.false_ne_true
      refine ⟨?_, h.once, h.stopped, fun i hexited => absurd (h.exited i hexited).1 hunset,
        fun _ => .inr ⟨p, by simp [setProducer]⟩, fun hset => absurd hset hunset⟩
      show s.accepted ++ [task] = s.taken ++ (s.tasks ++ [task])
      rw [h.order, List.append_assoc]

/-- A call of `notify_one` may return when some worker is active or the queue is
empty. -/
theorem Inv.notified [DecidableEq ι] {s : ThreadPool α ι n} (h : s.Inv) (p : ι)
    (hwatched : s.tasks ≠ [] → ∃ i, (s.workers i).Active) : (s.setProducer p .idle).Inv where
  order := h.order
  once := h.once
  stopped := h.stopped
  exited := h.exited
  watched := fun htasks => .inl (hwatched htasks)
  woken := h.woken

/-- When no worker waits, one of them is active or the queue is empty: not all have
exited. -/
theorem Inv.exists_active {s : ThreadPool α ι n} (h : s.Inv) (hn : 0 < n)
    (hwaiting : ∀ i, s.workers i ≠ .waiting) (htasks : s.tasks ≠ []) :
    ∃ i, (s.workers i).Active := by
  refine ⟨⟨0, hn⟩, ?_⟩
  cases hworker : s.workers ⟨0, hn⟩ with
  | awake => trivial
  | running task => trivial
  | waiting => exact absurd hworker (hwaiting _)
  | exited => exact absurd (h.exited _ hworker).2 htasks

/-- A worker goes to sleep on an empty queue, while the flag is not set. -/
theorem inv_wait {s : ThreadPool α ι n} (h : s.Inv) {i : Fin n} (hworker : s.workers i = .awake)
    (htasks : s.tasks = []) (hstop : s.stop = false) : (s.setWorker i .waiting).Inv where
  order := h.order
  once := by
    rw [running_setWorker_of_task (by rw [hworker]; rfl)]
    exact h.once
  stopped := h.stopped
  exited := fun _ => h.exited_setWorker (by simp)
  watched := fun hne => absurd htasks hne
  woken := fun hset => absurd ((show s.stop = true from hset).symm.trans hstop) (by simp)

/-- A worker exits on an empty queue, when the flag is set. -/
theorem inv_exit {s : ThreadPool α ι n} (h : s.Inv) {i : Fin n} (hworker : s.workers i = .awake)
    (htasks : s.tasks = []) (hstop : s.stop = true) : (s.setWorker i .exited).Inv where
  order := h.order
  once := by
    rw [running_setWorker_of_task (by rw [hworker]; rfl)]
    exact h.once
  stopped := h.stopped
  exited := fun _ _ => ⟨hstop, htasks⟩
  watched := fun hne => absurd htasks hne
  woken := h.woken_setWorker i (by simp)

/-- A worker takes the first task off the queue and runs it. -/
theorem inv_take {s : ThreadPool α ι n} (h : s.Inv) {i : Fin n} (hworker : s.workers i = .awake)
    {task : α} {rest : List α} (htasks : s.tasks = task :: rest) :
    ({ s with tasks := rest, taken := s.taken ++ [task] }.setWorker i (.running task)).Inv where
  order := by
    show s.accepted = s.taken ++ [task] ++ rest
    rw [h.order, htasks, List.append_assoc, List.singleton_append]
  once := by
    have hrunning := running_setWorker s i (.running task)
    rw [hworker, Worker.task, Worker.task, add_zero] at hrunning
    show ((s.taken ++ [task] : List α) : Multiset α) = s.finished + (s.setWorker i _).running
    rw [hrunning, ← Multiset.coe_add, h.once, add_assoc]
    rfl
  stopped := h.stopped
  exited := fun j hexited => by
    -- nobody has exited, since there was a task
    have hnone : s.tasks = [] := (h.exited_setWorker (i := i) (j := j) (by simp) hexited).2
    rw [hnone] at htasks
    cases htasks
  watched := fun _ => .inl ⟨i, by rw [workers_setWorker_self]; trivial⟩
  woken := h.woken_setWorker i (by simp)

/-- A task that returns is finished. -/
theorem inv_finish {s : ThreadPool α ι n} (h : s.Inv) {i : Fin n} {task : α}
    (hworker : s.workers i = .running task) : (s.finish i task).Inv where
  order := h.order
  once := by
    have hrunning := running_setWorker s i .awake
    rw [hworker, Worker.task, Worker.task, add_zero] at hrunning
    show (s.taken : Multiset α) = (s.finished ++ [task] : List α) + (s.setWorker i _).running
    rw [h.once, ← hrunning, ← Multiset.coe_add, add_assoc, add_comm (s.setWorker i _).running]
    rfl
  stopped := h.stopped
  exited := fun _ => h.exited_setWorker (by simp)
  watched := fun _ => .inl ⟨i, by rw [finish, workers_setWorker_self]; trivial⟩
  woken := h.woken_setWorker i (by simp)

/-- The destructor sets the flag in front of its `notify_all`. -/
theorem inv_setStop {s : ThreadPool α ι n} (h : s.Inv) : s.setStop.Inv where
  order := h.order
  once := h.once
  stopped := iff_of_true rfl Destructor.noConfusion
  exited := fun i hexited => ⟨rfl, (h.exited i hexited).2⟩
  watched := h.watched
  woken := fun _ => .inl rfl

/-- `notify_all` leaves nobody asleep and disturbs nobody else. -/
theorem inv_notifyAll {s : ThreadPool α ι n} (h : s.Inv) (hstopping : s.destructor = .stopping) :
    (s.notifyAll.setDestructor (.joining 0)).Inv := by
  have hset : s.stop = true := h.stopped.mpr (by rw [hstopping]; exact Destructor.noConfusion)
  have hrunning : s.notifyAll.running = s.running :=
    Finset.sum_congr rfl fun i _ => (s.workers i).task_wake
  refine ⟨h.order, h.once.trans (congrArg _ hrunning.symm), iff_of_true hset Destructor.noConfusion,
    fun i hexited => h.exited i ((s.workers i).wake_eq_exited_iff.mp hexited), fun htasks => ?_,
    fun _ => .inr fun i => (s.workers i).wake_ne_waiting⟩
  cases h.watched htasks with
  | inl hactive =>
      obtain ⟨i, hi⟩ := hactive
      exact .inl ⟨i, (s.workers i).active_wake hi⟩
  | inr hpushed => exact .inr hpushed

/-- Joining a thread only moves the destructor. -/
theorem inv_setDestructor {s : ThreadPool α ι n} (h : s.Inv) {k : Nat}
    (hjoining : s.destructor = .joining k) {destructor : Destructor}
    (hne : destructor ≠ .idle) : (s.setDestructor destructor).Inv := by
  have hset : s.stop = true := h.stopped.mpr (by rw [hjoining]; exact Destructor.noConfusion)
  refine ⟨h.order, h.once, iff_of_true hset hne, h.exited, h.watched, fun _ => .inr ?_⟩
  exact (h.woken hset).resolve_left (by rw [hjoining]; exact Destructor.noConfusion)

/-- Every step keeps the invariant. -/
theorem inv_step [DecidableEq ι] (hn : 0 < n) {s s' : ThreadPool α ι n} (h : s.Inv)
    (hstep : Step s s') : s'.Inv := by
  cases hstep with
  | enqueue task _ => exact inv_enqueue h _ task
  | @notifyOne p i _ hwaiting =>
      have hawake : (s.setWorker i .awake).Inv := h.setWorker trivial (by rw [hwaiting]; rfl)
      exact hawake.notified p fun _ => ⟨i, by rw [workers_setWorker_self]; trivial⟩
  | @notifyNone p _ hwaiting => exact h.notified p (h.exists_active hn hwaiting)
  | wake hwaiting => exact h.setWorker trivial (by rw [hwaiting]; rfl)
  | @lock i hawake =>
      rcases workerLoop_cases s i with ⟨htasks, hstop, heq⟩ | ⟨htasks, hstop, heq⟩ |
        ⟨task, rest, htasks, heq⟩
      · rw [heq]
        exact inv_wait h hawake htasks hstop
      · rw [heq]
        exact inv_exit h hawake htasks hstop
      · rw [heq]
        exact inv_take h hawake htasks
  | finish hrunning => exact inv_finish h hrunning
  | stop _ => exact inv_setStop h
  | notifyAll hstopping => exact inv_notifyAll h hstopping
  | join _ hjoining _ => exact inv_setDestructor h hjoining Destructor.noConfusion
  | joined hjoining => exact inv_setDestructor h hjoining Destructor.noConfusion

/-- The invariant holds in every reachable state. -/
theorem Reached.inv [DecidableEq ι] (hn : 0 < n) {s : ThreadPool α ι n} (h : s.Reached) :
    s.Inv := by
  have hreach : Machine.Reachable (· = ({} : ThreadPool α ι n)) Step s := h
  refine hreach.always ?_ ?_
  · intro s₀ hinit
    rw [hinit]
    exact inv_empty
  · intro s₁ s₂ hinv hstep
    exact inv_step hn hinv hstep

/-! ## After the flag is set -/

/-- With the flag set, no step accepts a task or clears the flag. -/
theorem accepted_of_step [DecidableEq ι] {s s' : ThreadPool α ι n} (hstop : s.stop = true)
    (hstep : Step s s') : s'.stop = true ∧ s'.accepted = s.accepted := by
  cases hstep with
  | enqueue task _ =>
      rw [enqueue_of_stop hstop]
      exact ⟨hstop, rfl⟩
  | @lock i _ =>
      rcases workerLoop_cases s i with ⟨_, _, heq⟩ | ⟨_, _, heq⟩ | ⟨task, rest, _, heq⟩
      · rw [heq]
        exact ⟨hstop, rfl⟩
      · rw [heq]
        exact ⟨hstop, rfl⟩
      · rw [heq]
        exact ⟨hstop, rfl⟩
  | stop _ => exact ⟨rfl, rfl⟩
  | notifyOne | notifyNone | wake | finish | notifyAll | join | joined => exact ⟨hstop, rfl⟩

/-- Neither does a run. -/
theorem accepted_of_run [DecidableEq ι] {s s' : ThreadPool α ι n} (hstop : s.stop = true)
    (hrun : Relation.ReflTransGen Step s s') : s'.stop = true ∧ s'.accepted = s.accepted := by
  induction hrun with
  | refl => exact ⟨hstop, rfl⟩
  | tail _ hlast ih =>
      obtain ⟨hstop', haccepted⟩ := accepted_of_step ih.1 hlast
      exact ⟨hstop', haccepted.trans ih.2⟩

/-- When all workers have returned, no task runs. -/
theorem running_of_exited {s : ThreadPool α ι n} (h : ∀ i, s.workers i = .exited) :
    s.running = 0 :=
  Finset.sum_eq_zero fun i _ => by rw [h i, Worker.task]

/-! ## Every accepted task runs once -/

/-- In every reachable state the accepted tasks are those that have finished, those
that run and those in the queue, and they are taken in the order of their acceptance.
None is accepted any more once the destructor has set the flag, and when all workers
have returned all of them have finished. -/
theorem runs_accepted_once [DecidableEq ι] (hn : 0 < n) {s : ThreadPool α ι n}
    (h : s.Reached) :
    (s.accepted : Multiset α) = s.finished + s.running + s.tasks ∧
      s.accepted = s.taken ++ s.tasks ∧
      (s.stop = true → ∀ s', Relation.ReflTransGen Step s s' → s'.accepted = s.accepted) ∧
      ((∀ i, s.workers i = .exited) →
        s.tasks = [] ∧ (s.accepted : Multiset α) = s.finished) := by
  have hinv : s.Inv := h.inv hn
  have hunion : (s.accepted : Multiset α) = s.finished + s.running + s.tasks := by
    rw [hinv.order, ← Multiset.coe_add, hinv.once]
  refine ⟨hunion, hinv.order, fun hstop s' hrun => (accepted_of_run hstop hrun).2, ?_⟩
  intro hexited
  have htasks : s.tasks = [] := (hinv.exited ⟨0, hn⟩ (hexited _)).2
  rw [running_of_exited hexited, htasks] at hunion
  exact ⟨htasks, by simpa using hunion⟩

/-- One worker and one caller: the task is accepted, taken and done, the destructor
sets the flag, and the worker exits. -/
theorem shortRun_runs_task :
    ∃ s : ThreadPool Nat Unit 1, (∀ i, s.workers i = .exited) ∧ s.accepted = [7] ∧
      s.tasks = [] ∧ (s.accepted : Multiset Nat) = s.finished := by
  let s₀ : ThreadPool Nat Unit 1 := {}
  let s₁ := s₀.enqueue () 7
  let s₂ := s₁.workerLoop 0
  let s₃ := s₂.finish 0 7
  let s₄ := s₃.setStop
  let s₅ := s₄.workerLoop 0
  have hfinish : Step s₂ s₃ := .finish rfl
  have hrun : Relation.ReflTransGen Step s₀ s₅ :=
    ((((Relation.ReflTransGen.single (.enqueue 7 rfl)).tail (.lock rfl)).tail
      hfinish).tail (.stop rfl)).tail (.lock rfl)
  have hexited : ∀ i, s₅.workers i = .exited := fun i => by
    rw [Fin.fin_one_eq_zero i]
    rfl
  exact ⟨s₅, hexited, rfl, (runs_accepted_once Nat.one_pos ⟨s₀, rfl, hrun⟩).2.2.2 hexited⟩

/-! ## No wake-up is lost -/

/-- Nothing is under way: no worker has the mutex, a task or a notification, no call
of `enqueue` and no destructor is about to notify. -/
structure AtRest (s : ThreadPool α ι n) : Prop where
  workers : ∀ i, ¬ (s.workers i).Active
  producers : ∀ p, s.producers p = .idle
  destructor : s.destructor ≠ .stopping

/-- In every reachable state a queue with a task in it has a worker that will look at
it or a call of `enqueue` that is still to notify, and with the flag set no worker
waits except in front of the destructor's `notify_all`.  So the pool never comes to
rest with a task in the queue, or with a destructor that joins a worker that sleeps. -/
theorem no_lost_wakeup [DecidableEq ι] (hn : 0 < n) {s : ThreadPool α ι n} (h : s.Reached) :
    (s.tasks ≠ [] → (∃ i, (s.workers i).Active) ∨ ∃ p, s.producers p = .pushed) ∧
      (s.stop = true → s.destructor = .stopping ∨ ∀ i, s.workers i ≠ .waiting) ∧
      (s.AtRest → s.tasks = []) ∧
      ∀ k, s.destructor = .joining k → ∀ i, s.workers i ≠ .waiting := by
  have hinv : s.Inv := h.inv hn
  refine ⟨hinv.watched, hinv.woken, fun hrest => ?_, fun k hjoining => ?_⟩
  · by_contra htasks
    cases hinv.watched htasks with
    | inl hactive =>
        obtain ⟨i, hi⟩ := hactive
        exact hrest.workers i hi
    | inr hpushed =>
        obtain ⟨p, hp⟩ := hpushed
        rw [hrest.producers p] at hp
        cases hp
  · have hset : s.stop = true :=
      hinv.stopped.mpr (by rw [hjoining]; exact Destructor.noConfusion)
    exact (hinv.woken hset).resolve_left (by rw [hjoining]; exact Destructor.noConfusion)

/-- A worker goes to sleep, a task is accepted before the notification, and the flag
is set: the call of `enqueue` is still to notify, and so is the destructor. -/
theorem sleepingWorker_is_watched :
    ∃ s : ThreadPool Nat Unit 1, s.workers 0 = .waiting ∧ s.tasks = [7] ∧ s.stop = true ∧
      ((∃ i, (s.workers i).Active) ∨ ∃ p, s.producers p = .pushed) ∧
      (s.destructor = .stopping ∨ ∀ i, s.workers i ≠ .waiting) := by
  let s₀ : ThreadPool Nat Unit 1 := {}
  let s₁ := s₀.workerLoop 0
  let s₂ := s₁.enqueue () 7
  let s₃ := s₂.setStop
  have hrun : Relation.ReflTransGen Step s₀ s₃ :=
    ((Relation.ReflTransGen.single (.lock rfl)).tail (.enqueue 7 rfl)).tail (.stop rfl)
  obtain ⟨hwatched, hwoken, -⟩ := no_lost_wakeup Nat.one_pos (s := s₃) ⟨s₀, rfl, hrun⟩
  exact ⟨s₃, rfl, rfl, rfl, hwatched (List.cons_ne_nil 7 []), hwoken rfl⟩

end Fion.Network.ThreadPool
