import Fion.Network.StoppingServer
import Mathlib.Data.Prod.Lex

/-!
# When stopping a server comes to an end

Each join of `Server::stop` waits for a thread, so whether it returns is a question about
runs in which every thread gets its turn (`FairRun`).  It returns exactly when no pool is
told to stop before its thread has entered its loop (`stop_returns_iff`): such a thread sets
the flag of its loop after `stop` has cleared it, and nobody clears it again.
-/

namespace Fion.Network

/-! ## Loops that are told to stop -/

namespace PoolLoop

variable {l l' : PoolLoop}

/-- A thread whose loop is told to stop before it has entered it, or that has set the flag
of its loop since. -/
def Undying (l : PoolLoop) : Prop :=
  l.running = false ∧ l.point = .entered ∨
    l.running = true ∧ l.point ≠ .entered ∧ l.point ≠ .returned

theorem Undying.not_returned (h : l.Undying) : l.point ≠ .returned := by
  rcases h with ⟨-, hpoint⟩ | ⟨-, -, hpoint⟩
  · rw [hpoint]
    exact LoopPoint.noConfusion
  · exact hpoint

/-- It goes on for ever. -/
theorem Undying.turn (h : l.Undying) (hturn : l.Turn l') : l'.Undying := by
  rcases h with ⟨hrunning, hentered⟩ | ⟨hrunning, hentered, -⟩
  · rcases hturn.moves with ⟨-, rfl⟩ | ⟨hpoint, -⟩ | ⟨hpoint, -⟩ | ⟨_, _, _, hpoint, -⟩
    · rw [PoolLoop.exchange, hrunning]
      exact .inr ⟨rfl, LoopPoint.noConfusion, LoopPoint.noConfusion⟩
    · rw [hentered] at hpoint
      cases hpoint
    · rw [hentered] at hpoint
      cases hpoint
    · rw [hentered] at hpoint
      cases hpoint
  · rcases hturn.moves with ⟨hpoint, -⟩ | ⟨-, rfl⟩ | ⟨-, hsame, _, hpoint⟩ |
      ⟨_, _, _, -, hsame, hpoint, -⟩
    · exact absurd hpoint hentered
    · rw [PoolLoop.load, if_pos hrunning]
      exact .inr ⟨hrunning, LoopPoint.noConfusion, LoopPoint.noConfusion⟩
    · exact .inr ⟨hsame.trans hrunning, by simp [hpoint], by simp [hpoint]⟩
    · exact .inr ⟨hsame.trans hrunning, by simp [hpoint], by simp [hpoint]⟩

/-- A thread that has entered its loop and then was told to stop. -/
def Ending (l : PoolLoop) : Prop := l.running = false ∧ l.point ≠ .entered

/-- Whether it is in the poll, and how many steps it takes behind it. -/
def left (l : PoolLoop) : Nat × Nat :=
  match l.point with
  | .polling => (1, 0)
  | .handling rest => (0, rest.length + 1)
  | .entered | .returned => (0, 0)

theorem left_fst_le (l : PoolLoop) : l.left.1 ≤ 1 := by
  rw [left]
  split
  · exact Nat.le_refl 1
  · exact Nat.zero_le 1
  · exact Nat.zero_le 1
  · exact Nat.zero_le 1

/-- It comes nearer to its end with each step. -/
theorem Ending.turn (h : l.Ending) (hturn : l.Turn l') :
    l'.Ending ∧ toLex l'.left < toLex l.left := by
  obtain ⟨hrunning, hentered⟩ := h
  rcases hturn.moves with ⟨hpoint, -⟩ | ⟨hpoint, rfl⟩ | ⟨hpoint, hsame, events, hpoint'⟩ |
    ⟨event, rest, rest', hpoint, hsame, hpoint', hlength⟩
  · exact absurd hpoint hentered
  · rw [PoolLoop.load, if_neg (by rw [hrunning]; exact Bool.false_ne_true)]
    refine ⟨⟨hrunning, LoopPoint.noConfusion⟩, ?_⟩
    rw [left, left, hpoint]
    exact Prod.Lex.toLex_lt_toLex.mpr (.inr ⟨rfl, Nat.zero_lt_one⟩)
  · refine ⟨⟨hsame.trans hrunning, by simp [hpoint']⟩, ?_⟩
    rw [left, left, hpoint, hpoint']
    exact Prod.Lex.toLex_lt_toLex.mpr (.inl Nat.zero_lt_one)
  · refine ⟨⟨hsame.trans hrunning, by simp [hpoint']⟩, ?_⟩
    rw [left, left, hpoint, hpoint']
    exact Prod.Lex.toLex_lt_toLex.mpr (.inr ⟨rfl, Nat.succ_lt_succ (Nat.lt_succ_of_le hlength)⟩)

end PoolLoop

/-- How far `stop` is from its end, apart from the threads that it waits for. -/
def Stopper.weight (n : Nat) : Stopper → Nat
  | .idle => 4 * n + 4
  | .closing => 4 * n + 3
  | .joiningAccept => 4 * n + 2
  | .stopping k => 4 * (n - k) + 1
  | .joining k => 4 * (n - k) - 1
  | .done => 0

/-- How many steps the accept thread takes, once the flag of the server is cleared. -/
def AcceptPoint.left : AcceptPoint → Nat
  | .accepting => 2
  | .testing => 1
  | .returned => 0

namespace StoppingServer

variable {n : Nat}

/-! ## When `stop` does not return -/

/-- `stop` waits for a thread that goes on for ever. -/
def Doomed (s : StoppingServer n) : Prop :=
  ∃ i : Fin n, s.stopper = .joining i ∧ (s.loops i).Undying

theorem Inv.doomed {s : StoppingServer n} (h : s.Inv) (hlost : s.Lost) : s.Doomed := by
  obtain ⟨i, hjoining, hentered⟩ := hlost
  exact ⟨i, hjoining, .inl ⟨h.unset i hentered, hentered⟩⟩

theorem Doomed.step {s s' : StoppingServer n} (h : s.Doomed) (hstep : s.Step s') :
    s'.Doomed := by
  obtain ⟨i, hjoining, hundying⟩ := h
  refine ⟨i, ?_, ?_⟩
  · rcases stopper_of_step hstep with ⟨hsame, -⟩ | hact
    · rw [hsame, hjoining]
    · exfalso
      cases hact with
      | @join _ j hjoining' hreturned =>
          rw [hjoining] at hjoining'
          obtain rfl := Fin.ext (Stopper.joining.inj hjoining')
          exact hundying.not_returned hreturned
      | stop heq | close heq | store heq | finish heq => rw [hjoining] at heq; cases heq
      | joinAccept heq _ => rw [hjoining] at heq; cases heq
  · rcases loop_of_step hstep i with hsame | hturn | ⟨hstopping, -, -⟩
    · rw [hsame]
      exact hundying
    · exact hundying.turn hturn
    · rw [hjoining] at hstopping
      cases hstopping

/-- `stop` returns once. -/
theorem done_of_step {s s' : StoppingServer n} (hstep : s.Step s') (h : s.stopper = .done) :
    s'.stopper = .done := by
  rcases stopper_of_step hstep with ⟨hsame, -⟩ | hact
  · rw [hsame, h]
  · cases hact with
    | stop heq | close heq | store heq | finish heq => rw [h] at heq; cases heq
    | joinAccept heq _ | join heq _ => rw [h] at heq; cases heq

/-! ## When it does -/

/-- What is left of the thread that `stop` waits for. -/
def awaited (s : StoppingServer n) : Nat × Nat :=
  match s.stopper with
  | .joiningAccept => (0, s.acceptThread.left)
  | .joining k => if hk : k < n then (s.loops ⟨k, hk⟩).left else (0, 0)
  | .idle | .closing | .stopping _ | .done => (0, 0)

/-- What is left of `stop`. -/
def distance (s : StoppingServer n) : Nat ×ₗ Nat :=
  toLex (s.stopper.weight n + s.awaited.1, s.awaited.2)

/-- The thread that `stop` waits for helps, and if there is none, `stop` goes on by itself. -/
def Helps (s : StoppingServer n) : Thread n → Prop
  | .accept => s.stopper = .joiningAccept ∧ s.acceptThread ≠ .returned
  | .loop i => s.stopper = .joining i ∧ (s.loops i).point ≠ .returned
  | .owner =>
      (s.stopper = .joiningAccept → s.acceptThread = .returned) ∧
        ∀ i : Fin n, s.stopper = .joining i → (s.loops i).point = .returned

/-- What holds when `stop` does not wait for a thread that has not entered its loop. -/
structure Orderly (s : StoppingServer n) : Prop where
  inv : s.Inv
  ending : ∀ i : Fin n, s.stopper = .joining i → (s.loops i).Ending

theorem awaited_joining {s : StoppingServer n} {i : Fin n} (h : s.stopper = .joining i) :
    s.awaited = (s.loops i).left := by
  simp [awaited, h]

theorem distance_joiningAccept {s : StoppingServer n} (h : s.stopper = .joiningAccept) :
    s.distance = toLex (4 * n + 2, s.acceptThread.left) := by
  simp [distance, awaited, h, Stopper.weight]

/-- The accept thread does not matter while `stop` does not wait for it. -/
theorem setAccept_of_not_awaited {s : StoppingServer n} (h : s.stopper ≠ .joiningAccept)
    (point : AcceptPoint) :
    (s.setAccept point).distance = s.distance ∧
      ∀ thread, s.Helps thread → (s.setAccept point).Helps thread := by
  constructor
  · have hawaited : (s.setAccept point).awaited = s.awaited := by
      cases hstopper : s.stopper with
      | joiningAccept => exact absurd hstopper h
      | idle | closing | stopping | joining | done => simp [awaited, setAccept, hstopper]
    rw [distance, distance, hawaited]
    rfl
  · intro thread hhelps
    cases thread with
    | accept => exact absurd hhelps.1 h
    | loop i => exact hhelps
    | owner => exact ⟨fun hjoining => absurd hjoining h, hhelps.2⟩

/-- Neither does a loop. -/
theorem setLoop_of_not_awaited {s : StoppingServer n} {i : Fin n} (h : s.stopper ≠ .joining i)
    (l : PoolLoop) :
    (s.setLoop i l).distance = s.distance ∧
      ∀ thread, s.Helps thread → (s.setLoop i l).Helps thread := by
  have hloops : ∀ j : Fin n, s.stopper = .joining j → (s.setLoop i l).loops j = s.loops j :=
    fun j hj => loops_setLoop_of_ne (fun (heq : j = i) => h (heq ▸ hj)) s l
  constructor
  · have hawaited : (s.setLoop i l).awaited = s.awaited := by
      cases hstopper : s.stopper with
      | joining k =>
          by_cases hk : k < n
          · have hstopper' : s.stopper = .joining (⟨k, hk⟩ : Fin n) := hstopper
            rw [awaited_joining hstopper', ← hloops _ hstopper']
            exact awaited_joining hstopper'
          · simp [awaited, setLoop, hstopper, hk]
      | idle | closing | joiningAccept | stopping | done => simp [awaited, setLoop, hstopper]
    rw [distance, distance, hawaited]
    rfl
  · intro thread hhelps
    cases thread with
    | accept => exact hhelps
    | loop j => exact ⟨hhelps.1, by rw [hloops j hhelps.1]; exact hhelps.2⟩
    | owner => exact ⟨hhelps.1, fun j hj => by rw [hloops j hj]; exact hhelps.2 j hj⟩

/-- The owner comes nearer to the end with each step. -/
theorem distance_owner {s s' : StoppingServer n} (h : s.Inv) (hact : Acts .owner s s') :
    s'.distance < s.distance := by
  cases hact with
  | stop hidle =>
      rw [stop_of_running (h.stopped.mpr hidle)]
      refine Prod.Lex.toLex_lt_toLex.mpr (.inl ?_)
      simp [setStopper, awaited, hidle, Stopper.weight]
  | close hclosing =>
      refine Prod.Lex.toLex_lt_toLex.mpr (.inl ?_)
      simp [setStopper, awaited, hclosing, Stopper.weight]
  | joinAccept hjoining _ =>
      refine Prod.Lex.toLex_lt_toLex.mpr (.inl ?_)
      simp [setStopper, awaited, hjoining, Stopper.weight]
  | @store _ i hstopping =>
      refine Prod.Lex.toLex_lt_toLex.mpr (.inl ?_)
      have hleft := (s.loops i).stop.left_fst_le
      have hlt := i.isLt
      rw [awaited_joining (i := i) rfl]
      simp only [setStopper, loops_setLoop_self, awaited, hstopping, Stopper.weight]
      omega
  | @join _ i hjoining _ =>
      refine Prod.Lex.toLex_lt_toLex.mpr (.inl ?_)
      have hlt := i.isLt
      simp only [setStopper, awaited, hjoining, Stopper.weight]
      omega
  | finish hstopping =>
      refine Prod.Lex.toLex_lt_toLex.mpr (.inl ?_)
      simp [setStopper, awaited, hstopping, Stopper.weight]

/-- A thread that helps makes it shorter. -/
theorem distance_of_helps {s s' : StoppingServer n} (h : s.Orderly) {thread : Thread n}
    (hhelps : s.Helps thread) (hact : Acts thread s s') : s'.distance < s.distance := by
  cases thread with
  | owner => exact distance_owner h.inv hact
  | accept =>
      have hjoining := hhelps.1
      have hcleared : s.running = false := by
        rw [← Bool.not_eq_true, h.inv.stopped, hjoining]
        exact Stopper.noConfusion
      rw [distance_joiningAccept hjoining]
      cases hact with
      | acceptLoad htesting =>
          obtain ⟨point, heq, hreturned⟩ := s.acceptLoad_eq
          rw [heq, hreturned hcleared, distance_joiningAccept (s := s.setAccept .returned) hjoining,
            htesting]
          exact Prod.Lex.toLex_lt_toLex.mpr (.inr ⟨rfl, Nat.zero_lt_one⟩)
      | accepted haccepting =>
          rw [distance_joiningAccept (s := s.setAccept .testing) hjoining, haccepting]
          exact Prod.Lex.toLex_lt_toLex.mpr (.inr ⟨rfl, Nat.one_lt_two⟩)
  | loop i =>
      have hjoining := hhelps.1
      cases hact with
      | @loop _ _ l hturn =>
          have hless := ((h.ending i hjoining).turn hturn).2
          rw [Prod.Lex.toLex_lt_toLex] at hless
          refine Prod.Lex.toLex_lt_toLex.mpr ?_
          rw [awaited_joining hjoining, awaited_joining (s := s.setLoop i l) hjoining,
            loops_setLoop_self]
          exact hless.imp (fun hfst => Nat.add_lt_add_left hfst _)
            fun hsnd => ⟨congrArg (s.stopper.weight n + ·) hsnd.1, hsnd.2⟩

/-- Another thread leaves it helpful, and the way as long as it was. -/
theorem distance_of_others {s s' : StoppingServer n} {helper thread : Thread n}
    (hhelps : s.Helps helper) (hact : Acts thread s s') (hne : helper ≠ thread) :
    s'.distance = s.distance ∧ s'.Helps helper := by
  cases thread with
  | owner =>
      exfalso
      cases helper with
      | owner => exact hne rfl
      | accept =>
          cases hact with
          | joinAccept _ hreturned => exact hhelps.2 hreturned
          | stop heq | close heq | store heq | finish heq =>
              rw [hhelps.1] at heq
              cases heq
          | join heq _ => rw [hhelps.1] at heq; cases heq
      | loop i =>
          cases hact with
          | @join _ j hjoining hreturned =>
              rw [hhelps.1] at hjoining
              obtain rfl := Fin.ext (Stopper.joining.inj hjoining)
              exact hhelps.2 hreturned
          | stop heq | close heq | store heq | finish heq =>
              rw [hhelps.1] at heq
              cases heq
          | joinAccept heq _ => rw [hhelps.1] at heq; cases heq
  | accept =>
      have hjoining : s.stopper ≠ .joiningAccept := by
        intro hjoining
        cases helper with
        | owner =>
            have hreturned := hhelps.1 hjoining
            cases hact with
            | acceptLoad heq | accepted heq => rw [hreturned] at heq; cases heq
        | accept => exact hne rfl
        | loop i => rw [hhelps.1] at hjoining; cases hjoining
      cases hact with
      | acceptLoad =>
          obtain ⟨point, heq, -⟩ := s.acceptLoad_eq
          rw [heq]
          exact (setAccept_of_not_awaited hjoining point).imp_right fun hkept => hkept _ hhelps
      | accepted =>
          exact (setAccept_of_not_awaited hjoining _).imp_right fun hkept => hkept _ hhelps
  | loop j =>
      cases hact with
      | @loop _ _ l hturn =>
          have hjoining : s.stopper ≠ .joining j := by
            intro hjoining
            cases helper with
            | owner => exact PoolLoop.not_turn_of_returned (hhelps.2 j hjoining) hturn
            | accept => rw [hhelps.1] at hjoining; cases hjoining
            | loop i =>
                rw [hhelps.1] at hjoining
                exact hne (congrArg Thread.loop (Fin.ext (Stopper.joining.inj hjoining)))
          exact (setLoop_of_not_awaited hjoining l).imp_right fun hkept => hkept _ hhelps

/-- As long as `stop` is not done, some thread helps. -/
theorem exists_helps (s : StoppingServer n) : ∃ thread, s.Helps thread := by
  by_cases howner : s.Helps .owner
  · exact ⟨.owner, howner⟩
  · rcases not_and_or.mp howner with haccept | hloop
    · obtain ⟨hjoining, hreturned⟩ := Classical.not_imp.mp haccept
      exact ⟨.accept, hjoining, hreturned⟩
    · obtain ⟨i, hi⟩ := not_forall.mp hloop
      obtain ⟨hjoining, hreturned⟩ := Classical.not_imp.mp hi
      exact ⟨.loop i, hjoining, hreturned⟩

/-- And it can do something. -/
theorem exists_act_of_helps {s : StoppingServer n} (h : s.Inv) (hdone : s.stopper ≠ .done)
    {thread : Thread n} (hhelps : s.Helps thread) : ∃ s', Acts thread s s' := by
  cases thread with
  | accept =>
      cases haccept : s.acceptThread with
      | testing => exact ⟨_, .acceptLoad haccept⟩
      | accepting => exact ⟨_, .accepted haccept⟩
      | returned => exact absurd haccept hhelps.2
  | loop i =>
      obtain ⟨l, hturn⟩ := PoolLoop.exists_turn hhelps.2
      exact ⟨_, .loop hturn⟩
  | owner =>
      cases hstopper : s.stopper with
      | idle => exact ⟨_, .stop hstopper⟩
      | closing => exact ⟨_, .close hstopper⟩
      | joiningAccept => exact ⟨_, .joinAccept hstopper (hhelps.1 hstopper)⟩
      | stopping k =>
          have hle : k ≤ n := by
            have hbound := h.bound
            rwa [hstopper] at hbound
          cases Nat.lt_or_eq_of_le hle with
          | inl hk => exact ⟨_, .store (i := ⟨k, hk⟩) hstopper⟩
          | inr hk => exact ⟨_, .finish (hk ▸ hstopper)⟩
      | joining k =>
          have hi : s.stopper = .joining (⟨k, h.joining k hstopper⟩ : Fin n) := hstopper
          exact ⟨_, .join hi (hhelps.2 _ hi)⟩
      | done => exact absurd hstopper hdone

/-- A step behind which `stop` does not wait for a thread that has not entered its loop. -/
def OrderlyStep (s s' : StoppingServer n) : Prop := s.Step s' ∧ ¬ s'.Lost

/-- A loop that is told to stop late enough comes to its end. -/
theorem Orderly.step {s s' : StoppingServer n} (h : s.Orderly) (hstep : s.OrderlyStep s') :
    s'.Orderly := by
  obtain ⟨hstep, hlost⟩ := hstep
  refine ⟨inv_step h.inv hstep, fun i hjoining => ?_⟩
  have hentered : (s'.loops i).point ≠ .entered := fun hpoint => hlost ⟨i, hjoining, hpoint⟩
  rcases stopper_of_step hstep with ⟨hsame, -⟩ | hact
  · rw [hsame] at hjoining
    rcases loop_of_step hstep i with hloop | hturn | ⟨hstopping, -, -⟩
    · rw [hloop]
      exact h.ending i hjoining
    · exact ((h.ending i hjoining).turn hturn).1
    · rw [hjoining] at hstopping
      cases hstopping
  · cases hact with
    | stop hidle =>
        rw [stop_of_running (h.inv.stopped.mpr hidle)] at hjoining
        cases hjoining
    | @store _ j _ =>
        obtain rfl := Fin.ext (Stopper.joining.inj hjoining)
        refine ⟨?_, hentered⟩
        show ((s.setLoop j (s.loops j).stop).loops j).running = false
        rw [loops_setLoop_self]
        rfl
    | close | joinAccept | join | finish => cases hjoining

/-- The way of `stop`, when it does not wait for a thread that has not entered its loop. -/
def stopProgress (n : Nat) :
    Machine.Progress OrderlyStep Acts Orderly (fun s : StoppingServer n => s.stopper = .done)
      (Nat ×ₗ Nat) where
  distance := distance
  Helps thread s := s.Helps thread
  helper := fun s _ _ => s.exists_helps
  possible := fun _ _ hs hdone hhelps => exists_act_of_helps hs.inv hdone hhelps
  nearer := fun _ _ _ hs _ hhelps hact => distance_of_helps hs hhelps hact
  kept := by
    rintro helper s s' hs _ hhelps ⟨⟨thread, hact⟩, -⟩
    by_cases hne : helper = thread
    · subst hne
      exact .inl (distance_of_helps hs hhelps hact)
    · exact .inr (distance_of_others hhelps hact hne)

/-- In every fair run of a server and its threads, a call of `stop` returns exactly when it
never waits for a thread that has not entered its loop.  By then the accept thread and all
loops have returned. -/
theorem stop_returns_iff {run : Nat → StoppingServer n} (h : FairRun run) :
    (∃ m, (run m).stopper = .done ∧ (run m).acceptThread = .returned ∧
      ∀ i, ((run m).loops i).point = .returned) ↔ ∀ m, ¬ (run m).Lost := by
  constructor
  · rintro ⟨m, hdone, -⟩ k hlost
    have hdoomed := (h.inv k).doomed hlost
    cases Nat.le_total m k with
    | inl hle =>
        obtain ⟨i, hjoining, -⟩ := hdoomed
        have hlater := h.2.1.always (fun s => s.stopper = .done)
          (fun _ _ hs hstep => done_of_step hstep hs) hdone hle
        rw [hjoining] at hlater
        cases hlater
    | inr hle =>
        obtain ⟨i, hjoining, -⟩ := h.2.1.always Doomed (fun _ _ hs hstep => hs.step hstep)
          hdoomed hle
        rw [hjoining] at hdone
        cases hdone
  · intro hnever
    have hrun : Machine.EndlessRun OrderlyStep run := fun k =>
      (h.2.1 k).imp_right fun hstep => ⟨hstep, hnever (k + 1)⟩
    have hstart : (run 0).Orderly := by
      rw [h.1]
      exact ⟨inv_start, fun _ hjoining => by cases hjoining⟩
    obtain ⟨m, -, hdone⟩ := (stopProgress n).reaches (fun _ _ hs hstep => hs.step hstep) hrun
      h.2.2 hstart
    have hinv := h.inv m
    refine ⟨m, hdone, hinv.accept (by rw [hdone]; trivial), fun i => hinv.loops i ?_⟩
    rw [hdone]
    exact i.isLt

/-- One pool, whose loop is entered before `stop` is called. -/
def orderlyMoves : List (StoppingServer 1 → StoppingServer 1) :=
  [fun s => s.setLoop (Fin.last 0) (s.loops (Fin.last 0)).exchange, stop, acceptLoad,
    fun s => s.setStopper .joiningAccept, fun s => s.setStopper (.stopping 0),
    fun s => (s.setLoop (Fin.last 0) (s.loops (Fin.last 0)).stop).setStopper (.joining 0),
    fun s => s.setLoop (Fin.last 0) (s.loops (Fin.last 0)).load,
    fun s => s.setStopper (.stopping 1), fun s => s.setStopper .done]

/-- The state after so many of these moves. -/
def orderlyRun (k : Nat) : StoppingServer 1 := (orderlyMoves.take k).foldl (fun s move => move s) {}

theorem fairRun_orderlyRun : FairRun orderlyRun := by
  refine ⟨rfl, .of_alwaysStep ?_, fun thread => .of_last fun s' hact => ?_⟩
  · exact ⟨⟨_, .loop (.exchange rfl)⟩, ⟨_, .stop rfl⟩, ⟨_, .acceptLoad rfl⟩, ⟨_, .close rfl⟩,
      ⟨_, .joinAccept rfl rfl⟩, ⟨_, .store rfl⟩, ⟨_, .loop (.load rfl)⟩,
      ⟨_, (.join (i := 0) rfl rfl : Acts .owner (orderlyRun 7) (orderlyRun 8))⟩,
      ⟨_, .finish rfl⟩, trivial⟩
  · cases hact with
    | @loop _ i _ hturn =>
        refine PoolLoop.not_turn_of_returned ?_ hturn
        rw [Fin.fin_one_eq_zero i]
        rfl
    | acceptLoad htesting => cases htesting
    | accepted haccepting => cases haccepting
    | stop heq | close heq | store heq | finish heq => cases heq
    | joinAccept heq _ | join heq _ => cases heq

/-- While the flag of the loop is cleared and its thread is not joined yet. -/
theorem orderlyRun_not_lost : ¬ (orderlyRun 6).Lost := by
  refine (stop_returns_iff fairRun_orderlyRun).mp ⟨9, rfl, rfl, fun i => ?_⟩ 6
  rw [Fin.fin_one_eq_zero i]
  rfl

end StoppingServer

end Fion.Network
