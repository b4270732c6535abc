import Fion.Network.ThreadPoolProgress

/-!
# The destructor of a thread pool returns

The destructor sets the flag, notifies all workers and joins one after the other.  With the
flag set no worker goes to sleep, and no task is accepted any more, so that each step of a
worker or of the destructor leaves less work (`Ending.work_of_step`).  While it waits for a
worker, that worker can take a step, and otherwise it can take one itself.  So in a fair run
it gets to its end (`destructor_returns`).
-/

namespace Fion.Network

/-- How far the destructor of a pool with `n` workers is from its end. -/
def Destructor.stage (n : Nat) : Destructor → Nat
  | .idle => n + 3
  | .stopping => n + 2
  | .joining k => n + 1 - k
  | .done => 0

/-- How many of the `n` threads are joined. -/
def Destructor.joined (n : Nat) : Destructor → Nat
  | .idle | .stopping => 0
  | .joining k => k
  | .done => n

namespace ThreadPool

variable {α ι : Type} {n : Nat}

/-! ## What the destructor has joined -/

theorem Acts.step [DecidableEq ι] {thread : Thread ι n} {s s' : ThreadPool α ι n}
    (h : Acts thread s s') : Step s s' := by
  cases h with
  | lock hawake => exact .lock hawake
  | finish hrunning => exact .finish hrunning
  | notifyOne hpushed hwaiting => exact .notifyOne hpushed hwaiting
  | notifyNone hpushed hnone => exact .notifyNone hpushed hnone
  | notifyAll hstopping => exact .notifyAll hstopping
  | join hk hjoining hexited => exact .join hk hjoining hexited
  | joined hjoining => exact .joined hjoining

/-- The threads that the destructor has joined have returned. -/
def Joined (s : ThreadPool α ι n) : Prop :=
  s.destructor.joined n ≤ n ∧ ∀ i : Fin n, i.val < s.destructor.joined n → s.workers i = .exited

/-- The destructor moves in its own steps only. -/
theorem destructor_of_step [DecidableEq ι] {s s' : ThreadPool α ι n} (hstep : Step s s') :
    s'.destructor = s.destructor ∨ s.destructor = .idle ∧ s' = s.setStop ∨
      Acts .destructor s s' := by
  cases hstep with
  | @enqueue p task _ =>
      cases hstop : s.stop with
      | true => exact .inl (by rw [enqueue_of_stop hstop])
      | false => exact .inl (by rw [enqueue_of_not_stop hstop]; rfl)
  | @lock i _ =>
      rcases workerLoop_cases s i with ⟨-, -, heq⟩ | ⟨-, -, heq⟩ | ⟨task, rest, -, heq⟩ <;>
      · rw [heq]
        exact .inl rfl
  | notifyOne | notifyNone | wake | finish => exact .inl rfl
  | stop hidle => exact .inr (.inl ⟨hidle, rfl⟩)
  | notifyAll hstopping => exact .inr (.inr (.notifyAll hstopping))
  | join hk hjoining hexited => exact .inr (.inr (.join hk hjoining hexited))
  | joined hjoining => exact .inr (.inr (.joined hjoining))

/-- It joins the threads in order. -/
theorem joined_of_step [DecidableEq ι] {s s' : ThreadPool α ι n} (h : s.Joined)
    (hstep : Step s s') : s'.Joined := by
  rcases destructor_of_step hstep with hsame | ⟨-, rfl⟩ | hact
  · rw [Joined, hsame]
    exact ⟨h.1, fun i hi => exited_of_step (h.2 i hi) hstep⟩
  · exact ⟨Nat.zero_le n, fun _ hi => absurd hi (Nat.not_lt_zero _)⟩
  · cases hact with
    | notifyAll => exact ⟨Nat.zero_le n, fun _ hi => absurd hi (Nat.not_lt_zero _)⟩
    | join hk hjoining hexited =>
        rw [Joined, hjoining] at h
        refine ⟨hk, fun i hi => ?_⟩
        cases Nat.lt_succ_iff_lt_or_eq.mp hi with
        | inl hless => exact h.2 i hless
        | inr heq => exact (congrArg s.workers (Fin.ext heq)).trans hexited
    | joined hjoining =>
        rw [Joined, hjoining] at h
        exact ⟨Nat.le_refl n, h.2⟩

/-- And it only goes forward. -/
theorem stage_of_step [DecidableEq ι] {s s' : ThreadPool α ι n} (hstep : Step s s') :
    s'.destructor = s.destructor ∨ s'.destructor.stage n < s.destructor.stage n := by
  rcases destructor_of_step hstep with hsame | ⟨hidle, rfl⟩ | hact
  · exact .inl hsame
  · rw [hidle]
    exact .inr (Nat.lt_succ_self _)
  · refine .inr ?_
    cases hact with
    | notifyAll hstopping =>
        rw [hstopping]
        exact Nat.lt_succ_self _
    | @join _ k hk hjoining _ =>
        rw [hjoining]
        show n + 1 - (k + 1) < n + 1 - k
        omega
    | joined hjoining =>
        rw [hjoining]
        show 0 < n + 1 - n
        omega

/-! ## The way to its end -/

/-- Once the flag is set, the destructor helps itself, unless it has to wait for a worker,
which then helps it. -/
def Ends (s : ThreadPool α ι n) : Thread ι n → Prop
  | .worker i => s.destructor = .joining i ∧ s.workers i ≠ .exited
  | .producer _ => False
  | .destructor =>
      s.destructor = .stopping ∨
        ∃ k, s.destructor = .joining k ∧ ∀ hk : k < n, s.workers ⟨k, hk⟩ = .exited

/-- The steps that the tasks in the queue, the workers and the destructor still take. -/
def work (s : ThreadPool α ι n) : Nat :=
  2 * s.tasks.length + s.load + s.destructor.stage n

/-- What holds while the destructor runs. -/
structure Ending (s : ThreadPool α ι n) : Prop where
  inv : s.Inv
  stopped : s.stop = true
  joined : s.Joined

theorem Ending.step [DecidableEq ι] (hn : 0 < n) {s s' : ThreadPool α ι n} (h : s.Ending)
    (hstep : Step s s') : s'.Ending where
  inv := inv_step hn h.inv hstep
  stopped := (accepted_of_step h.stopped hstep).1
  joined := joined_of_step h.joined hstep

/-- With the flag set, what a worker takes leaves the queue. -/
theorem Ending.work_of_lighter [DecidableEq ι] (hn : 0 < n) {s s' : ThreadPool α ι n}
    (h : s.Ending) (hstep : Step s s') (hlighter : s.Lighter s') : s'.work < s.work := by
  have hinv' := inv_step hn h.inv hstep
  have hlength := congrArg List.length h.inv.order
  have hlength' := congrArg List.length hinv'.order
  rw [(accepted_of_step h.stopped hstep).2, List.length_append] at hlength'
  rw [List.length_append] at hlength
  have hstage : s'.destructor.stage n ≤ s.destructor.stage n := by
    cases stage_of_step hstep with
    | inl hsame => rw [hsame]
    | inr hless => exact hless.le
  rw [Lighter] at hlighter
  rw [work, work]
  omega

/-- Every step leaves less work, or the workers and the destructor as they are. -/
theorem Ending.work_of_step [DecidableEq ι] (hn : 0 < n) {s s' : ThreadPool α ι n}
    (h : s.Ending) (hstep : Step s s') :
    s'.work < s.work ∨
      s'.work = s.work ∧ s'.workers = s.workers ∧ s'.destructor = s.destructor := by
  have hpredicate : s.tasks = [] → s.stop = true := fun _ => h.stopped
  rcases load_of_step hpredicate hstep with ⟨hworkers, htaken⟩ | hlighter
  · have hload : s'.load = s.load := by rw [load, hworkers, load]
    have hlength := congrArg List.length h.inv.order
    have hlength' := congrArg List.length (inv_step hn h.inv hstep).order
    rw [(accepted_of_step h.stopped hstep).2, htaken, List.length_append] at hlength'
    rw [List.length_append] at hlength
    cases stage_of_step hstep with
    | inl hsame =>
        refine .inr ⟨?_, hworkers, hsame⟩
        rw [work, work, hload, hsame]
        omega
    | inr hless =>
        refine .inl ?_
        rw [work, work, hload]
        omega
  · exact .inl (h.work_of_lighter hn hstep hlighter)

/-- The way of the destructor. -/
def endProgress [DecidableEq ι] (hn : 0 < n) :
    Machine.Progress Step Acts Ending (fun s : ThreadPool α ι n => s.destructor = .done)
      Nat where
  distance := work
  Helps thread s := s.Ends thread
  helper := by
    intro s hs hgoal
    cases hdestructor : s.destructor with
    | idle => exact absurd hdestructor (hs.inv.stopped.mp hs.stopped)
    | stopping => exact ⟨.destructor, .inl hdestructor⟩
    | joining k =>
        by_cases hexited : ∀ hk : k < n, s.workers ⟨k, hk⟩ = .exited
        · exact ⟨.destructor, .inr ⟨k, hdestructor, hexited⟩⟩
        · obtain ⟨hk, hne⟩ := not_forall.mp hexited
          exact ⟨.worker ⟨k, hk⟩, hdestructor, hne⟩
    | done => exact absurd hdestructor hgoal
  possible := by
    intro thread s hs hgoal hends
    cases thread with
    | worker i =>
        cases hworker : s.workers i with
        | awake => exact ⟨_, .lock hworker⟩
        | running task => exact ⟨_, .finish hworker⟩
        | waiting =>
            cases hs.inv.woken hs.stopped with
            | inl hstopping => rw [hends.1] at hstopping; cases hstopping
            | inr hawake => exact absurd hworker (hawake i)
        | exited => exact absurd hworker hends.2
    | producer p => exact hends.elim
    | destructor =>
        rcases hends with hstopping | ⟨k, hjoining, hexited⟩
        · exact ⟨_, .notifyAll hstopping⟩
        · have hle := hs.joined.1
          rw [hjoining] at hle
          cases Nat.lt_or_eq_of_le hle with
          | inl hk => exact ⟨_, .join hk hjoining (hexited hk)⟩
          | inr hk => exact ⟨_, .joined (hjoining.trans (congrArg Destructor.joining hk))⟩
  nearer := by
    intro thread s s' hs hgoal hends hact
    cases thread with
    | worker i =>
        exact hs.work_of_lighter hn hact.step (lighter_act (fun _ => hs.stopped) hact)
    | producer p => exact hends.elim
    | destructor =>
        refine (hs.work_of_step hn hact.step).resolve_right fun hsame => ?_
        have hdestructor := hsame.2.2
        cases hact with
        | notifyAll hstopping => rw [hstopping] at hdestructor; cases hdestructor
        | join hk hjoining _ =>
            rw [hjoining] at hdestructor
            exact absurd (Destructor.joining.inj hdestructor) (Nat.succ_ne_self _)
        | joined hjoining => rw [hjoining] at hdestructor; cases hdestructor
  kept := by
    intro thread s s' hs hgoal hends hstep
    refine (hs.work_of_step hn hstep).imp_right fun hsame => ⟨hsame.1, ?_⟩
    cases thread with
    | worker i => simpa only [Ends, hsame.2] using hends
    | producer p => exact hends.elim
    | destructor => simpa only [Ends, hsame.2] using hends

/-- The destructor returns: in a fair run, once it has set the flag, it gets to its end some
time.  Then all workers have returned, the queue is empty, and each task that was accepted
has returned exactly once. -/
theorem destructor_returns [DecidableEq ι] (hn : 0 < n) {run : Nat → ThreadPool α ι n}
    (h : FairRun run) {k : Nat} (hstop : (run k).stop = true) :
    ∃ m, k ≤ m ∧ (run m).destructor = .done ∧ (∀ i, (run m).workers i = .exited) ∧
      (run m).tasks = [] ∧ ((run k).accepted : Multiset α) = (run m).finished := by
  have hstart : (run 0).Joined := by
    rw [h.1]
    exact ⟨Nat.zero_le n, fun _ hi => absurd hi (Nat.not_lt_zero _)⟩
  have hjoined : (run k).Joined :=
    h.2.1.always Joined (fun _ _ hs hstep => joined_of_step hs hstep) hstart k.zero_le
  have hending : (run k).Ending := ⟨h.inv hn k, hstop, hjoined⟩
  obtain ⟨m, hm, hdone⟩ := (endProgress hn).reaches (fun _ _ hs hstep => hs.step hn hstep)
    h.2.1 h.2.2 hending
  obtain ⟨-, haccepted⟩ := h.2.1.always
    (fun s => s.stop = true ∧ s.accepted = (run k).accepted)
    (fun s s' hs hstep => ⟨(accepted_of_step hs.1 hstep).1,
      (accepted_of_step hs.1 hstep).2.trans hs.2⟩) ⟨hstop, rfl⟩ hm
  have hinv := h.inv hn m
  have hexited : ∀ i, (run m).workers i = .exited := by
    have hall := (h.2.1.always Ending (fun _ _ hs hstep => hs.step hn hstep) hending hm).joined
    rw [Joined, hdone] at hall
    exact fun i => hall.2 i i.isLt
  have htasks : (run m).tasks = [] := (hinv.exited ⟨0, hn⟩ (hexited _)).2
  refine ⟨m, hm, hdone, hexited, htasks, ?_⟩
  have honce := hinv.once
  rw [running_of_exited hexited, add_zero] at honce
  rw [← haccepted, hinv.order, htasks, List.append_nil, honce]

theorem lastRun_returns : ∃ m, 4 ≤ m ∧ (lastRun m).destructor = .done ∧
    (∀ i, (lastRun m).workers i = .exited) ∧ (lastRun m).tasks = [] ∧
      ({7} : Multiset Nat) = (lastRun m).finished :=
  destructor_returns Nat.one_pos fairRun_lastRun (k := 4) rfl

end ThreadPool

end Fion.Network
