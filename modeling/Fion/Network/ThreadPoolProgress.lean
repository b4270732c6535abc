import Fion.Machine.Fairness
import Fion.Network.ThreadPoolSafety
import Mathlib.Algebra.Order.BigOperators.Group.Finset

/-!
# Every accepted task returns

Nothing a thread does in a `ThreadPool` undoes the work of another.  A worker that has
something to do comes nearer to its end with each of its steps, waking a worker up counts
as one, and a task that is taken pays for the two steps that follow (`load_of_step`).

Suppose a thread that keeps trying for the mutex gets it some time, that each task returns,
and that each call of `enqueue` gets to its notification (`FairRun`).  Then the tasks that
are accepted by some point are taken and return (`accepted_finishes`).
-/

namespace Fion.Network

/-- The workers of a pool, the threads that call `enqueue`, and the one that destroys it. -/
inductive ThreadPool.Thread (ι : Type) (n : Nat) where
  | worker (i : Fin n)
  | producer (p : ι)
  | destructor

/-- How far a worker is from its end, when there is nothing more to take. -/
def Worker.load {α : Type} : Worker α → Nat
  | .exited => 0
  | .awake => 1
  | .running _ | .waiting => 2

section Wake

variable {α : Type} (worker : Worker α)

theorem Worker.load_wake_le : worker.wake.load ≤ worker.load := by
  cases worker <;> simp [wake, load]

theorem Worker.exists_running_of_task {worker : Worker α} (h : worker.task ≠ 0) :
    ∃ task, worker = .running task := by
  cases worker with
  | running task => exact ⟨task, rfl⟩
  | awake | waiting | exited => exact absurd rfl h

theorem Worker.wake_of_ne_waiting (h : worker ≠ .waiting) : worker.wake = worker := by
  cases worker with
  | waiting => exact absurd rfl h
  | awake | running | exited => rfl

end Wake

namespace ThreadPool

variable {α ι : Type} {n : Nat}

/-- What a thread does when it is its turn. -/
inductive Acts [DecidableEq ι] : Thread ι n → ThreadPool α ι n → ThreadPool α ι n → Prop where
  | lock {s : ThreadPool α ι n} {i : Fin n} :
      s.workers i = .awake →
      Acts (.worker i) s (s.workerLoop i)
  | finish {s : ThreadPool α ι n} {i : Fin n} {task : α} :
      s.workers i = .running task →
      Acts (.worker i) s (s.finish i task)
  | notifyOne {s : ThreadPool α ι n} {p : ι} {i : Fin n} :
      s.producers p = .pushed →
      s.workers i = .waiting →
      Acts (.producer p) s ((s.setWorker i .awake).setProducer p .idle)
  | notifyNone {s : ThreadPool α ι n} {p : ι} :
      s.producers p = .pushed →
      (∀ i, s.workers i ≠ .waiting) →
      Acts (.producer p) s (s.setProducer p .idle)
  | notifyAll {s : ThreadPool α ι n} :
      s.destructor = .stopping →
      Acts .destructor s (s.notifyAll.setDestructor (.joining 0))
  | join {s : ThreadPool α ι n} {k : Nat} (hk : k < n) :
      s.destructor = .joining k →
      s.workers ⟨k, hk⟩ = .exited →
      Acts .destructor s (s.setDestructor (.joining (k + 1)))
  | joined {s : ThreadPool α ι n} :
      s.destructor = .joining n →
      Acts .destructor s (s.setDestructor .done)

/-- Any two threads take turns, each gets its own, and every task returns. -/
def FairRun [DecidableEq ι] (run : Nat → ThreadPool α ι n) : Prop :=
  run 0 = {} ∧ Machine.EndlessRun Step run ∧ ∀ thread, Machine.WeaklyFair (Acts thread) run

/-- The invariant holds all along a run. -/
theorem FairRun.inv [DecidableEq ι] (hn : 0 < n) {run : Nat → ThreadPool α ι n}
    (h : FairRun run) (k : Nat) : (run k).Inv := by
  have hstart : (run 0).Inv := by
    rw [h.1]
    exact inv_empty
  exact h.2.1.always Inv (fun _ _ hinv hstep => inv_step hn hinv hstep) hstart k.zero_le

/-! ## The load of the workers -/

/-- The steps that the workers still have to take, if nothing more is taken. -/
def load (s : ThreadPool α ι n) : Nat := ∑ i, (s.workers i).load

/-- A worker that moves exchanges its own load. -/
theorem load_setWorker (s : ThreadPool α ι n) (i : Fin n) (worker : Worker α) :
    (s.setWorker i worker).load + (s.workers i).load = s.load + worker.load := by
  have hload : (s.setWorker i worker).load =
      ∑ j, Function.update (fun j => (s.workers j).load) i worker.load j :=
    Finset.sum_congr rfl fun j _ =>
      Function.apply_update (fun _ => Worker.load) s.workers i worker j
  rw [hload, Finset.sum_update_of_mem (Finset.mem_univ i), load,
    Finset.sum_eq_add_sum_sdiff_singleton_of_mem (Finset.mem_univ i)]
  omega

/-- The workers have less before them.  Taking a task pays for two steps. -/
def Lighter (s s' : ThreadPool α ι n) : Prop :=
  s'.taken.length ≤ s.taken.length + 1 ∧
    s'.load + 2 * s.taken.length < s.load + 2 * s'.taken.length

/-- The other threads do not count. -/
theorem Lighter.of_same {s s' s'' : ThreadPool α ι n} (h : s.Lighter s')
    (hworkers : s''.workers = s'.workers) (htaken : s''.taken = s'.taken) : s.Lighter s'' := by
  rw [Lighter, load, hworkers, htaken]
  exact h

/-- A worker that wakes up has one step less before it. -/
theorem lighter_wake {s : ThreadPool α ι n} {i : Fin n} (h : s.workers i = .waiting) :
    s.Lighter (s.setWorker i .awake) := by
  have hload := s.load_setWorker i .awake
  rw [h] at hload
  simp only [Worker.load] at hload
  simp only [Lighter, setWorker] at hload ⊢
  omega

/-- As long as no worker has to go to sleep, each step of a worker is one less. -/
theorem lighter_act [DecidableEq ι] {s s' : ThreadPool α ι n} {i : Fin n}
    (hpredicate : s.tasks = [] → s.stop = true) (h : Acts (.worker i) s s') : s.Lighter s' := by
  cases h with
  | lock hawake =>
      rcases workerLoop_cases s i with ⟨htasks, hstop, -⟩ | ⟨-, -, heq⟩ | ⟨task, rest, -, heq⟩
      · rw [hpredicate htasks] at hstop
        cases hstop
      · have hload := s.load_setWorker i .exited
        rw [hawake] at hload
        simp only [Worker.load] at hload
        rw [heq]
        simp only [Lighter, setWorker] at hload ⊢
        omega
      · have hload := s.load_setWorker i (.running task)
        rw [hawake] at hload
        simp only [Worker.load] at hload
        rw [heq]
        simp only [Lighter, setWorker, load, List.length_append, List.length_singleton] at hload ⊢
        omega
  | finish hrunning =>
      have hload := s.load_setWorker i .awake
      rw [hrunning] at hload
      simp only [Worker.load] at hload
      simp only [Lighter, finish, setWorker, load] at hload ⊢
      omega

/-- Every other step leaves the workers and what they took alone, or wakes some up. -/
theorem load_of_step [DecidableEq ι] {s s' : ThreadPool α ι n}
    (hpredicate : s.tasks = [] → s.stop = true) (h : Step s s') :
    s'.workers = s.workers ∧ s'.taken = s.taken ∨ s.Lighter s' := by
  cases h with
  | @enqueue p task _ =>
      cases hstop : s.stop with
      | true => exact .inl (by rw [enqueue_of_stop hstop]; exact ⟨rfl, rfl⟩)
      | false => exact .inl (by rw [enqueue_of_not_stop hstop]; exact ⟨rfl, rfl⟩)
  | notifyOne _ hwaiting => exact .inr ((lighter_wake hwaiting).of_same rfl rfl)
  | wake hwaiting => exact .inr (lighter_wake hwaiting)
  | lock hawake => exact .inr (lighter_act hpredicate (.lock hawake))
  | finish hrunning => exact .inr (lighter_act hpredicate (.finish hrunning))
  | notifyAll _ =>
      by_cases hwaiting : ∃ i, s.workers i = .waiting
      · obtain ⟨i, hi⟩ := hwaiting
        have hload : s.notifyAll.load < s.load :=
          Finset.sum_lt_sum (fun j _ => (s.workers j).load_wake_le)
            ⟨i, Finset.mem_univ i, by simp [notifyAll, hi, Worker.wake, Worker.load]⟩
        have hlighter : s.Lighter s.notifyAll :=
          ⟨Nat.le_succ _, Nat.add_lt_add_right hload (2 * s.taken.length)⟩
        exact .inr (hlighter.of_same rfl rfl)
      · refine .inl ⟨funext fun i => ?_, rfl⟩
        exact (s.workers i).wake_of_ne_waiting fun hi => hwaiting ⟨i, hi⟩
  | notifyNone | stop | join | joined => exact .inl ⟨rfl, rfl⟩

/-! ## Every accepted task is taken -/

/-- What was accepted stays accepted. -/
theorem accepted_prefix_of_step [DecidableEq ι] {s s' : ThreadPool α ι n} (h : Step s s') :
    s.accepted <+: s'.accepted := by
  cases h with
  | @enqueue p task _ =>
      cases hstop : s.stop with
      | true => rw [enqueue_of_stop hstop]
      | false =>
          rw [enqueue_of_not_stop hstop]
          exact List.prefix_append s.accepted [task]
  | @lock i _ =>
      rcases workerLoop_cases s i with ⟨-, -, heq⟩ | ⟨-, -, heq⟩ | ⟨task, rest, -, heq⟩ <;>
      · rw [heq]
        exact List.prefix_refl s.accepted
  | notifyOne | notifyNone | wake | finish | stop | notifyAll | join | joined =>
      exact List.prefix_refl s.accepted

/-- A call of `enqueue` that is to notify does so, or is still to. -/
theorem pushed_of_step [DecidableEq ι] {s s' : ThreadPool α ι n} {p : ι}
    (hpushed : s.producers p = .pushed) (h : Step s s') :
    s'.producers p = .pushed ∨ Acts (.producer p) s s' := by
  cases h with
  | @enqueue q task hidle =>
      have hne : p ≠ q := fun heq => by rw [heq, hidle] at hpushed; cases hpushed
      cases hstop : s.stop with
      | true => exact .inl (by rw [enqueue_of_stop hstop]; exact hpushed)
      | false => exact .inl (by rw [enqueue_of_not_stop hstop]; simp [setProducer, hne, hpushed])
  | @notifyOne q i hq hwaiting =>
      by_cases hp : p = q
      · subst hp
        exact .inr (.notifyOne hq hwaiting)
      · exact .inl (by simp [setProducer, setWorker, hp, hpushed])
  | @notifyNone q hq hnone =>
      by_cases hp : p = q
      · subst hp
        exact .inr (.notifyNone hq hnone)
      · exact .inl (by simp [setProducer, hp, hpushed])
  | @lock i _ =>
      rcases workerLoop_cases s i with ⟨-, -, heq⟩ | ⟨-, -, heq⟩ | ⟨task, rest, -, heq⟩ <;>
      · rw [heq]
        exact .inl hpushed
  | wake | finish | stop | notifyAll | join | joined => exact .inl hpushed

/-- While an accepted task is not taken, there are tasks in the queue. -/
theorem Inv.tasks_ne_nil {s : ThreadPool α ι n} (h : s.Inv) {m : Nat}
    (haccepted : m ≤ s.accepted.length) (htaken : ¬ m ≤ s.taken.length) : s.tasks ≠ [] := by
  intro hnil
  rw [h.order, hnil, List.append_nil] at haccepted
  exact htaken haccepted

/-- With tasks in the queue, the workers that do something help, and while there are none, the
calls of `enqueue` that are to wake one up. -/
def Takes (s : ThreadPool α ι n) : Thread ι n → Prop
  | .worker i => (s.workers i).Active
  | .producer p => s.producers p = .pushed ∧ ∀ i, s.workers i = .waiting
  | .destructor => False

/-- With a task in the queue, some thread helps. -/
theorem Inv.exists_takes {s : ThreadPool α ι n} (h : s.Inv) (htasks : s.tasks ≠ []) :
    ∃ thread, s.Takes thread := by
  by_cases hactive : ∃ i, (s.workers i).Active
  · obtain ⟨i, hi⟩ := hactive
    exact ⟨.worker i, hi⟩
  · obtain ⟨p, hp⟩ := (h.watched htasks).resolve_left hactive
    refine ⟨.producer p, hp, fun i => ?_⟩
    cases hworker : s.workers i with
    | waiting => rfl
    | awake | running => exact absurd ⟨i, by rw [hworker]; trivial⟩ hactive
    | exited => exact absurd (h.exited i hworker).2 htasks

/-- A thread that helps can do something. -/
theorem exists_act_of_takes [DecidableEq ι] (hn : 0 < n) {s : ThreadPool α ι n}
    {thread : Thread ι n} (h : s.Takes thread) : ∃ s', Acts thread s s' := by
  cases thread with
  | worker i =>
      cases hworker : s.workers i with
      | awake => exact ⟨_, .lock hworker⟩
      | running task => exact ⟨_, .finish hworker⟩
      | waiting | exited => rw [Takes, hworker] at h; exact h.elim
  | producer p => exact ⟨_, .notifyOne h.1 (h.2 ⟨0, hn⟩)⟩
  | destructor => exact h.elim

/-- What it does makes the way shorter. -/
theorem lighter_of_takes [DecidableEq ι] (hn : 0 < n) {s s' : ThreadPool α ι n}
    (htasks : s.tasks ≠ []) {thread : Thread ι n} (h : s.Takes thread)
    (hact : Acts thread s s') : s.Lighter s' := by
  cases thread with
  | worker i => exact lighter_act (fun hnil => absurd hnil htasks) hact
  | producer p =>
      cases hact with
      | notifyOne _ hwaiting => exact (lighter_wake hwaiting).of_same rfl rfl
      | notifyNone _ hnone => exact absurd (h.2 ⟨0, hn⟩) (hnone _)
  | destructor => exact h.elim

/-- Steps that leave the workers alone leave a thread that helps helpful. -/
theorem takes_of_step [DecidableEq ι] (hn : 0 < n) {s s' : ThreadPool α ι n}
    (htasks : s.tasks ≠ []) {thread : Thread ι n} (h : s.Takes thread) (hstep : Step s s')
    (hworkers : s'.workers = s.workers) : s'.Takes thread ∨ s.Lighter s' := by
  cases thread with
  | worker i => exact .inl (by rw [Takes, hworkers]; exact h)
  | producer p =>
      cases pushed_of_step h.1 hstep with
      | inl hpushed => exact .inl ⟨hpushed, by rw [hworkers]; exact h.2⟩
      | inr hact => exact .inr (lighter_of_takes hn htasks h hact)
  | destructor => exact h.elim

/-- The way to a point where the first `m` tasks are taken. -/
def takenProgress [DecidableEq ι] (hn : 0 < n) (m : Nat) :
    Machine.Progress Step Acts
      (fun s : ThreadPool α ι n => s.Inv ∧ m ≤ s.accepted.length) (fun s => m ≤ s.taken.length)
      Nat where
  distance s := 2 * (m - s.taken.length) + s.load
  Helps thread s := s.Takes thread
  helper := fun _ hs hgoal => hs.1.exists_takes (hs.1.tasks_ne_nil hs.2 hgoal)
  possible := fun _ _ _ _ htakes => exists_act_of_takes hn htakes
  nearer := by
    intro thread s s' hs hgoal htakes hact
    have hlighter := lighter_of_takes hn (hs.1.tasks_ne_nil hs.2 hgoal) htakes hact
    rw [Lighter] at hlighter
    omega
  kept := by
    intro thread s s' hs hgoal htakes hstep
    have htasks := hs.1.tasks_ne_nil hs.2 hgoal
    have hshorter : s.Lighter s' → 2 * (m - s'.taken.length) + s'.load <
        2 * (m - s.taken.length) + s.load := by
      intro hlighter
      rw [Lighter] at hlighter
      omega
    rcases load_of_step (fun hnil => absurd hnil htasks) hstep with ⟨hworkers, htaken⟩ | hlighter
    · cases takes_of_step hn htasks htakes hstep hworkers with
      | inl htakes' => exact .inr ⟨by rw [htaken, load, hworkers, load], htakes'⟩
      | inr hlighter => exact .inl (hshorter hlighter)
    · exact .inl (hshorter hlighter)

/-- In a fair run the tasks that are accepted by some point are taken. -/
theorem FairRun.takes [DecidableEq ι] (hn : 0 < n) {run : Nat → ThreadPool α ι n}
    (h : FairRun run) (k : Nat) : ∃ m, k ≤ m ∧ (run k).accepted <+: (run m).taken := by
  have hgrows : ∀ m, k ≤ m → (run k).accepted <+: (run m).accepted :=
    fun m hm => h.2.1.always (fun s => (run k).accepted <+: s.accepted)
      (fun _ _ hs hstep => hs.trans (accepted_prefix_of_step hstep)) List.prefix_rfl hm
  obtain ⟨m, hm, hlength⟩ := (takenProgress hn (run k).accepted.length).reaches
    (fun s s' hs hstep =>
      ⟨inv_step hn hs.1 hstep, hs.2.trans (accepted_prefix_of_step hstep).length_le⟩)
    h.2.1 h.2.2 ⟨h.inv hn k, Nat.le_refl _⟩
  refine ⟨m, hm, List.prefix_of_prefix_length_le (hgrows m hm) ?_ hlength⟩
  rw [(h.inv hn m).order]
  exact List.prefix_append ..

/-! ## And returns -/

/-- A worker moves in its own steps only, apart from waking up. -/
theorem worker_of_step [DecidableEq ι] {s s' : ThreadPool α ι n} (hstep : Step s s') (i : Fin n) :
    s'.workers i = s.workers i ∨ s.workers i = .waiting ∧ s'.workers i = .awake ∨
      Acts (.worker i) s s' := by
  cases hstep with
  | @enqueue p task _ =>
      cases hstop : s.stop with
      | true => exact .inl (by rw [enqueue_of_stop hstop])
      | false => exact .inl (by rw [enqueue_of_not_stop hstop]; rfl)
  | @notifyOne p j _ hwaiting =>
      by_cases hi : i = j
      · subst hi
        exact .inr (.inl ⟨hwaiting, workers_setWorker_self s i .awake⟩)
      · exact .inl (workers_setWorker_of_ne hi s .awake)
  | @wake j hwaiting =>
      by_cases hi : i = j
      · subst hi
        exact .inr (.inl ⟨hwaiting, workers_setWorker_self s i .awake⟩)
      · exact .inl (workers_setWorker_of_ne hi s .awake)
  | @lock j hawake =>
      by_cases hi : i = j
      · subst hi
        exact .inr (.inr (.lock hawake))
      · rcases workerLoop_cases s j with ⟨-, -, heq⟩ | ⟨-, -, heq⟩ | ⟨task, rest, -, heq⟩ <;>
        · rw [heq]
          exact .inl (workers_setWorker_of_ne hi _ _)
  | @finish j task hrunning =>
      by_cases hi : i = j
      · subst hi
        exact .inr (.inr (.finish hrunning))
      · exact .inl (workers_setWorker_of_ne hi _ .awake)
  | notifyAll _ =>
      cases hworker : s.workers i with
      | waiting => exact .inr (.inl ⟨rfl, by simp [notifyAll, setDestructor, hworker, Worker.wake]⟩)
      | awake | running | exited =>
          exact .inl (by simp [notifyAll, setDestructor, hworker, Worker.wake])
  | notifyNone | stop | join | joined => exact .inl rfl

/-- A task runs until it returns. -/
theorem running_of_step [DecidableEq ι] {s s' : ThreadPool α ι n} {i : Fin n} {task : α}
    (h : s.workers i = .running task) (hstep : Step s s') :
    s'.workers i = .running task ∨ s'.workers i = .awake := by
  rcases worker_of_step hstep i with hsame | ⟨hwaiting, -⟩ | hact
  · exact .inl (hsame.trans h)
  · rw [h] at hwaiting
    cases hwaiting
  · cases hact with
    | lock hawake => rw [h] at hawake; cases hawake
    | finish => exact .inr (workers_setWorker_self ..)

/-- A worker that has returned does nothing more. -/
theorem exited_of_step [DecidableEq ι] {s s' : ThreadPool α ι n} {i : Fin n}
    (h : s.workers i = .exited) (hstep : Step s s') : s'.workers i = .exited := by
  rcases worker_of_step hstep i with hsame | ⟨hwaiting, -⟩ | hact
  · exact hsame.trans h
  · rw [h] at hwaiting
    cases hwaiting
  · cases hact with
    | lock hawake => rw [h] at hawake; cases hawake
    | finish hrunning => rw [h] at hrunning; cases hrunning

/-- The way of a worker to a point where it runs nothing. -/
def returnProgress [DecidableEq ι] (i : Fin n) :
    Machine.Progress Step Acts (fun _ : ThreadPool α ι n => True)
      (fun s => (s.workers i).task = 0) Nat where
  distance s := (s.workers i).load
  Helps thread _ := thread = .worker i
  helper := fun _ _ _ => ⟨.worker i, rfl⟩
  possible := by
    rintro _ s - hgoal rfl
    obtain ⟨task, hrunning⟩ := Worker.exists_running_of_task hgoal
    exact ⟨_, .finish hrunning⟩
  nearer := by
    rintro _ s s' - hgoal rfl hact
    obtain ⟨task, hrunning⟩ := Worker.exists_running_of_task hgoal
    cases hact with
    | lock hawake => rw [hrunning] at hawake; cases hawake
    | finish => simp [finish, hrunning, Worker.load]
  kept := by
    rintro _ s s' - hgoal rfl hstep
    obtain ⟨task, hrunning⟩ := Worker.exists_running_of_task hgoal
    cases running_of_step hrunning hstep with
    | inl hstill => exact .inr ⟨by rw [hstill, hrunning], rfl⟩
    | inr hback => exact .inl (by rw [hback, hrunning]; exact Nat.one_lt_two)

/-- The tasks that some of the workers run. -/
def tasksOf (s : ThreadPool α ι n) (is : Finset (Fin n)) : Multiset α :=
  ∑ i ∈ is, (s.workers i).task

theorem tasksOf_le_setWorker {s : ThreadPool α ι n} {i : Fin n} {worker : Worker α}
    (h : (s.workers i).task ≤ worker.task) (is : Finset (Fin n)) :
    s.tasksOf is ≤ (s.setWorker i worker).tasksOf is := by
  refine Finset.sum_le_sum fun j _ => ?_
  by_cases hj : j = i
  · subst hj
    rw [workers_setWorker_self]
    exact h
  · rw [workers_setWorker_of_ne hj]

theorem tasksOf_le_finish {s : ThreadPool α ι n} {i : Fin n} {task : α}
    (h : s.workers i = .running task) (is : Finset (Fin n)) :
    s.tasksOf is ≤ {task} + (s.setWorker i .awake).tasksOf is := by
  have hothers : s.tasksOf (is.erase i) = (s.setWorker i .awake).tasksOf (is.erase i) :=
    Finset.sum_congr rfl fun j hj => by
      rw [workers_setWorker_of_ne (Finset.ne_of_mem_erase hj)]
  have hsubset : (s.setWorker i .awake).tasksOf (is.erase i) ≤ (s.setWorker i .awake).tasksOf is :=
    Finset.sum_le_sum_of_subset (Finset.erase_subset i is)
  by_cases hi : i ∈ is
  · have htask : s.tasksOf is = {task} + s.tasksOf (is.erase i) := by
      rw [tasksOf, ← Finset.add_sum_erase _ _ hi, h]
      rfl
    rw [htask, hothers]
    exact add_le_add_right hsubset _
  · rw [Finset.erase_eq_of_notMem hi] at hothers
    rw [hothers]
    exact le_add_of_nonneg_left zero_le

/-- What some of the workers run, when it is no longer run, has returned. -/
theorem finished_tasksOf_of_step [DecidableEq ι] {s s' : ThreadPool α ι n} (h : Step s s')
    (is : Finset (Fin n)) :
    (s.finished : Multiset α) + s.tasksOf is ≤ (s'.finished : Multiset α) + s'.tasksOf is := by
  cases h with
  | @enqueue p task _ =>
      cases hstop : s.stop with
      | true => rw [enqueue_of_stop hstop]
      | false => rw [enqueue_of_not_stop hstop]; exact le_rfl
  | @notifyOne _ i _ hwaiting =>
      have hnone : (s.workers i).task = 0 := by rw [hwaiting]; rfl
      exact add_le_add_right (tasksOf_le_setWorker (by rw [hnone]; exact zero_le) is) _
  | @wake i hwaiting =>
      have hnone : (s.workers i).task = 0 := by rw [hwaiting]; rfl
      exact add_le_add_right (tasksOf_le_setWorker (by rw [hnone]; exact zero_le) is) _
  | @lock i hawake =>
      have hnone : (s.workers i).task = 0 := by rw [hawake]; rfl
      rcases workerLoop_cases s i with ⟨-, -, heq⟩ | ⟨-, -, heq⟩ | ⟨task', rest, -, heq⟩ <;>
      · rw [heq]
        exact add_le_add_right (tasksOf_le_setWorker (by rw [hnone]; exact zero_le) is) _
  | @finish i task hrunning =>
      have hreturned := tasksOf_le_finish hrunning is
      show _ ≤ ((s.finished ++ [task] : List α) : Multiset α) + (s.setWorker i .awake).tasksOf is
      rw [← Multiset.coe_add, add_assoc]
      exact add_le_add_right hreturned _
  | notifyAll _ =>
      refine add_le_add_right (Finset.sum_le_sum fun j _ => ?_) _
      exact (s.workers j).task_wake.ge
  | notifyNone | stop | join | joined => exact le_rfl

/-- In a fair run what the workers run has returned some time. -/
theorem FairRun.returns [DecidableEq ι] {run : Nat → ThreadPool α ι n} (h : FairRun run)
    {pending : Multiset α} (is : Finset (Fin n)) {k : Nat}
    (hpending : pending ≤ (run k).finished + (run k).tasksOf is) :
    ∃ m, k ≤ m ∧ pending ≤ (run m).finished := by
  induction is using Finset.induction_on generalizing k with
  | empty => exact ⟨k, Nat.le_refl k, by simpa [tasksOf] using hpending⟩
  | insert i is hi ih =>
      obtain ⟨m, hm, hnone⟩ := (returnProgress i).reaches (fun _ _ _ _ => trivial) h.2.1 h.2.2
        (trivial : (fun _ => True) (run k))
      have hlater := h.2.1.always
        (fun s => pending ≤ (s.finished : Multiset α) + s.tasksOf (insert i is))
        (fun _ _ hs hstep => hs.trans (finished_tasksOf_of_step hstep _)) hpending hm
      rw [tasksOf, Finset.sum_insert hi, hnone, zero_add] at hlater
      obtain ⟨m', hm', hfinished⟩ := ih hlater
      exact ⟨m', hm.trans hm', hfinished⟩

/-- Every task that `enqueue` accepts returns: in a fair run, as often as it was accepted by
some point, it has returned by some later one.  This is so whether the pool is destroyed or
not. -/
theorem accepted_finishes [DecidableEq ι] (hn : 0 < n) {run : Nat → ThreadPool α ι n}
    (h : FairRun run) (k : Nat) :
    ∃ m, k ≤ m ∧ ((run k).accepted : Multiset α) ≤ (run m).finished := by
  obtain ⟨m, hm, htaken⟩ := h.takes hn k
  have hpending : ((run k).accepted : Multiset α) ≤
      (run m).finished + (run m).tasksOf Finset.univ :=
    (Multiset.coe_le.mpr htaken.sublist.subperm).trans (h.inv hn m).once.le
  obtain ⟨m', hm', hfinished⟩ := h.returns Finset.univ hpending
  exact ⟨m', hm.trans hm', hfinished⟩

/-- A task is accepted and taken, the destructor sets the flag, the task returns, and the
worker exits and is joined. -/
def lastMoves : List (ThreadPool Nat Unit 1 → ThreadPool Nat Unit 1) :=
  [fun s => s.enqueue () 7, fun s => s.setProducer () .idle, fun s => s.workerLoop 0, setStop,
    fun s => s.finish 0 7, fun s => s.notifyAll.setDestructor (.joining 0),
    fun s => s.workerLoop 0, fun s => s.setDestructor (.joining 1),
    fun s => s.setDestructor .done]

/-- The state after so many of these moves. -/
def lastRun (k : Nat) : ThreadPool Nat Unit 1 :=
  (lastMoves.take k).foldl (fun s move => move s) {}

theorem fairRun_lastRun : FairRun lastRun := by
  refine ⟨rfl, .of_alwaysStep ?_, fun thread => .of_last fun s' hact => ?_⟩
  · have hawake : ∀ i : Fin 1, (lastRun 1).workers i ≠ .waiting := fun _ => nofun
    exact ⟨.enqueue 7 rfl, .notifyNone rfl hawake, .lock rfl, .stop rfl,
      (.finish rfl : Step (lastRun 4) (lastRun 5)), .notifyAll rfl, .lock rfl,
      .join Nat.one_pos rfl rfl, .joined rfl, trivial⟩
  · cases hact with
    | @lock _ i hawake => rw [Fin.fin_one_eq_zero i] at hawake; cases hawake
    | @finish _ i _ hrunning => rw [Fin.fin_one_eq_zero i] at hrunning; cases hrunning
    | notifyOne hpushed => cases hpushed
    | notifyNone hpushed => cases hpushed
    | notifyAll hstopping => cases hstopping
    | join _ hjoining => cases hjoining
    | joined hjoining => cases hjoining

theorem lastRun_finishes : ∃ m, 1 ≤ m ∧ ({7} : Multiset Nat) ≤ (lastRun m).finished :=
  accepted_finishes Nat.one_pos fairRun_lastRun 1

end ThreadPool

end Fion.Network
