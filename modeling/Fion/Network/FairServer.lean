import Fion.Network.Service

/-!
# Every request is served, by any number of pools

Each pool of a server has its own poller, its own clients and its own loop.  What they share
is the user code and its state.  So a run of all pools is, for each of them, a run in which
others change that state from time to time, and what holds of one pool in such a run holds
of each pool of a server, whatever the others do.

With levels every complete request is served (`every_message_served`).  With edges it is
served exactly when its input is announced all along (`message_served_iff`).
-/

namespace Fion.Network

open Cpp (Bytes ascii)
open Machine (AlwaysStep EndlessRun StronglyFair WeaklyFair)

variable {W : Type} {n : Nat}

/-- The pools of a server, with their sockets. -/
abbrev Nets (W : Type) (n : Nat) := Fin n → Net W

namespace Nets

variable (regex : RegexEngine) (routes : List (Route W))

/-- A server without connections. -/
def start (w : W) : Nets W n := fun _ => Net.start w

/-- A step of one pool.  The others see what it makes of the user code's state. -/
def next (s : Nets W n) (a : Fin n × NetInput) : Nets W n := fun j =>
  if j = a.1 then (s j).next regex routes a.2
  else (s j).setWorld ((s a.1).next regex routes a.2).pool.world

section Fair

variable (i : Fin n) (admits : Net W → NetInput → Prop) (fd : Fd)

/-- The steps of one pool are admitted. -/
def AdmitsAt (s : Nets W n) (a : Fin n × NetInput) : Prop := a.1 = i → admits (s i) a.2

/-- What arrives at one pool. -/
def arrivals (inputs : List (Fin n × NetInput)) : Fd → Option Bytes :=
  Net.arrivals ((inputs.filter (·.1 = i)).map Prod.snd)

/-- Any pool takes a step, and if it is this one it leaves the descriptor to what has arrived
on it. -/
def Step (s s' : Nets W n) : Prop :=
  ∃ a, (a.1 = i → admits (s i) a.2 ∧ Net.Leaves fd a.2) ∧ s' = s.next regex routes a

/-- The loop of the pool handles its next event. -/
def HandlesNext (s s' : Nets W n) : Prop :=
  (s i).batch ≠ [] ∧ ∃ send, s' = s.next regex routes (i, .handle send)

/-- The poller of the pool reports the descriptor. -/
def Reports (s s' : Nets W n) : Prop :=
  ∃ fds, admits (s i) (.wait fds) ∧ fd ∈ fds ∧ s' = s.next regex routes (i, .wait fds)

/-- A run without end in which the loop of the pool gets on with its events and the kernel
does not pass over the descriptor for ever. -/
structure FairTo (run : Nat → Nets W n) : Prop where
  steps : EndlessRun (Step regex routes i admits fd) run
  loop : WeaklyFair (HandlesNext regex routes i) run
  kernel : StronglyFair (Reports regex routes i admits fd) run

end Fair

variable {regex routes} {i : Fin n} {admits : Net W → NetInput → Prop} {Kept : Net W → Prop}
  {fd : Fd}

@[simp] theorem next_self (s : Nets W n) (input : NetInput) :
    s.next regex routes (i, input) i = (s i).next regex routes input := if_pos rfl

theorem next_of_ne {s : Nets W n} {a : Fin n × NetInput} (h : a.1 ≠ i) :
    s.next regex routes a i = (s i).setWorld ((s a.1).next regex routes a.2).pool.world :=
  if_neg (Ne.symm h)

/-! ## One pool among the others -/

/-- What arrives at a pool is accounted for, whatever arrives at the others. -/
theorem accountsAt_run (p : Net.Polling regex routes admits Kept fd) {s : Nets W n}
    (arrived : Fd → Option Bytes) (hs : Kept (s i)) (h : (s i).AccountsAt fd (arrived fd))
    {inputs : List (Fin n × NetInput)}
    (hadm : AlwaysStep (next regex routes) (AdmitsAt i admits) s inputs) :
    Kept (inputs.foldl (next regex routes) s i) ∧
      (inputs.foldl (next regex routes) s i).AccountsAt fd
        (((inputs.filter (·.1 = i)).map Prod.snd).foldl Net.noteArrival arrived fd) := by
  induction inputs generalizing s arrived with
  | nil => exact ⟨hs, h⟩
  | cons a inputs ih =>
      by_cases ha : a.1 = i
      · obtain ⟨j, input⟩ := a
        obtain rfl := ha
        have hinput : admits (s j) input := hadm.1 rfl
        rw [List.filter_cons_of_pos (by simp), List.map_cons, List.foldl_cons, List.foldl_cons]
        refine ih _ ?_ ?_ hadm.2
        · rw [next_self]
          exact p.keeps (s j) input hs hinput
        · rw [next_self]
          exact p.accountsAt_next hs h hinput
      · rw [List.filter_cons_of_neg (by simpa using ha), List.foldl_cons]
        refine ih _ ?_ ?_ hadm.2
        · rw [next_of_ne ha]
          exact p.worlds (s i) _ hs
        · rw [next_of_ne ha]
          exact h.frame rfl rfl rfl

/-- A message that has arrived at the pool is accounted for. -/
theorem awaits_run (p : Net.Polling regex routes admits Kept fd) {w : W}
    (hw : Kept (Net.start w)) {inputs : List (Fin n × NetInput)}
    (hadm : AlwaysStep (next regex routes) (AdmitsAt i admits) (start w) inputs)
    {message : Bytes} (harrived : arrivals i inputs fd = some message) :
    Net.Awaits Kept fd message (inputs.foldl (next regex routes) (start w) i) := by
  obtain ⟨hkept, haccounts⟩ :=
    accountsAt_run p (fun _ => none) hw (Net.accountsAt_start w fd) hadm
  rw [arrivals, Net.arrivals] at harrived
  rw [harrived] at haccounts
  exact ⟨hkept, haccounts⟩

/-- For the pool, a step of the server is one of its own or of another pool. -/
theorem leavingStep_of_step {s s' : Nets W n} (h : Step regex routes i admits fd s s') :
    Net.LeavingStep regex routes admits fd (s i) (s' i) := by
  obtain ⟨⟨j, input⟩, hself, rfl⟩ := h
  by_cases hj : j = i
  · subst hj
    obtain ⟨hadm, hleaves⟩ := hself rfl
    exact .inr ⟨input, hadm, hleaves, next_self s input⟩
  · exact .inl ⟨_, next_of_ne hj⟩

section Projection

variable {run : Nat → Nets W n} (h : FairTo regex routes i admits fd run)

include h

theorem FairTo.endlessRun :
    EndlessRun (Net.LeavingStep regex routes admits fd) fun k => run k i :=
  h.steps.map (fun s : Nets W n => s i) fun _ _ hstep => .inr (leavingStep_of_step hstep)

theorem FairTo.handlesNext : WeaklyFair (Net.HandlesNext regex routes) fun k => run k i := by
  refine h.loop.map (fun s : Nets W n => s i) ?_ ?_
  · rintro s t ⟨hbatch, send, -⟩
    exact ⟨_, hbatch, send, rfl⟩
  · rintro s s' ⟨hbatch, send, rfl⟩
    exact ⟨hbatch, send, next_self s _⟩

theorem FairTo.reports :
    StronglyFair (Net.Reports regex routes admits fd) fun k => run k i := by
  refine h.kernel.map (fun s : Nets W n => s i) ?_ ?_
  · rintro s t ⟨fds, hadm, hmem, -⟩
    exact ⟨_, fds, hadm, hmem, rfl⟩
  · rintro s s' ⟨fds, hadm, hmem, rfl⟩
    exact ⟨fds, hadm, hmem, next_self s _⟩

end Projection

/-! ## What is served -/

/-- With levels, every message that has arrived is processed in the end, whatever the other
connections and the other pools do. -/
theorem every_message_served (w : W) {inputs : List (Fin n × NetInput)}
    (hadm : AlwaysStep (next regex routes) (AdmitsAt i Net.AdmitsLevels) (start w) inputs)
    {message : Bytes} (hframed : SelfFramed message)
    (harrived : arrivals i inputs fd = some message) {run : Nat → Nets W n}
    (hstart : run 0 = inputs.foldl (next regex routes) (start w))
    (hfair : FairTo regex routes i Net.AdmitsLevels fd run) :
    ∃ m, (run m i).pool.connectionPool.getClient fd = none ∧
      .processed fd message ∈ history (run m i).pool.log fd := by
  have hawaits : Net.Awaits Net.Levels fd message (run 0 i) := by
    rw [hstart]
    exact awaits_run (Net.levels_polling fd) (Net.levels_start w) hadm harrived
  exact Net.levels_served hframed hawaits hfair.endlessRun hfair.handlesNext hfair.reports

/-- The first of four pools has all of its message, and the second some of another. -/
def fourPools : List (Fin 4 × NetInput) :=
  [(0, .connect 3 (ascii "GET /a HTTP")), (1, .connect 4 (ascii "GET /b")),
    (0, .arrive 3 (ascii "/1.1\r\n\r\n"))]

/-- Their loops take turns. -/
def turns : List (Fin 4 × NetInput) :=
  [(1, .wait [4]), (0, .wait [3]), (1, .handle .wouldBlock), (0, .handle .wouldBlock)]

theorem turns_served :
    let s := fourPools.foldl (next (fun _ => .ok fun _ => none) []) (start ())
    ∃ m, ((turns.take m).foldl (next (fun _ => .ok fun _ => none) []) s
        0).pool.connectionPool.getClient 3 = none ∧
      .processed 3 (ascii "GET /a HTTP/1.1\r\n\r\n") ∈
        history ((turns.take m).foldl (next (fun _ => .ok fun _ => none) []) s 0).pool.log
          3 := by
  intro s
  have hadm : AlwaysStep (next (fun _ => .ok fun _ => none) []) (AdmitsAt 0 Net.AdmitsLevels)
      (start ()) fourPools :=
    ⟨fun _ => ⟨by decide, rfl⟩, nofun,
      fun _ => (by decide : ascii "/1.1\r\n\r\n" ≠ []), trivial⟩
  have hstep : AlwaysStep (next (fun _ => .ok fun _ => none) [])
      (fun s a => Step (fun _ => .ok fun _ => none) [] 0 Net.AdmitsLevels 3 s
        (s.next (fun _ => .ok fun _ => none) [] a)) s turns :=
    ⟨⟨(1, .wait [4]), nofun, rfl⟩,
      ⟨(0, .wait [3]), fun _ => ⟨⟨rfl, by decide, by decide⟩, trivial⟩, rfl⟩,
      ⟨(1, .handle .wouldBlock), nofun, rfl⟩,
      ⟨(0, .handle .wouldBlock), fun _ => ⟨trivial, trivial⟩, rfl⟩, trivial⟩
  have hlast : (turns.foldl (next (fun _ => .ok fun _ => none) []) s 0).batch = [] ∧
      ((turns.foldl (next (fun _ => .ok fun _ => none) []) s 0).sockets 3).queue = [] := by
    decide
  refine every_message_served () hadm Net.selfFramed_twoArrivals rfl (by rfl)
    ⟨EndlessRun.of_alwaysStep hstep, .of_last fun _ hact => hact.1 hlast.1,
      .of_last fun _ hact => ?_⟩
  obtain ⟨fds, hwait, hmem, -⟩ := hact
  exact (hwait.2.2 3 hmem).2 hlast.2

/-- With edges, it is processed exactly when what the connection has not read is announced
at any time. -/
theorem message_served_iff (w : W) {inputs : List (Fin n × NetInput)}
    (hadm : AlwaysStep (next regex routes) (AdmitsAt i (Net.AdmitsFinding fd)) (start w) inputs)
    {message : Bytes} (hframed : SelfFramed message)
    (harrived : arrivals i inputs fd = some message) {run : Nat → Nets W n}
    (hstart : run 0 = inputs.foldl (next regex routes) (start w))
    (hfair : FairTo regex routes i (Net.AdmitsFinding fd) fd run) :
    (∃ m, (run m i).pool.connectionPool.getClient fd = none ∧
      .processed fd message ∈ history (run m i).pool.log fd) ↔
        ∀ m, (run m i).NotifiedAt fd := by
  have hawaits : Net.Awaits Net.Inv fd message (run 0 i) := by
    rw [hstart]
    exact awaits_run (Net.edges_polling fd) (Net.inv_start w) hadm harrived
  exact Net.edges_served_iff hframed hawaits hfair.endlessRun hfair.handlesNext hfair.reports

theorem turns_served_with_edges :
    let s := fourPools.foldl (next (fun _ => .ok fun _ => none) []) (start ())
    ∃ m, ((turns.take m).foldl (next (fun _ => .ok fun _ => none) []) s
        0).pool.connectionPool.getClient 3 = none ∧
      .processed 3 (ascii "GET /a HTTP/1.1\r\n\r\n") ∈
        history ((turns.take m).foldl (next (fun _ => .ok fun _ => none) []) s 0).pool.log
          3 := by
  intro s
  have hadm : AlwaysStep (next (fun _ => .ok fun _ => none) [])
      (AdmitsAt 0 (Net.AdmitsFinding 3)) (start ()) fourPools :=
    ⟨fun _ => ⟨⟨by decide, rfl⟩, trivial⟩, nofun,
      fun _ => ⟨(by decide : ascii "/1.1\r\n\r\n" ≠ []), trivial⟩, trivial⟩
  have hfinds : ((turns.take 3).foldl (next (fun _ => .ok fun _ => none) []) s 0).FindsAt 3
      (.handle .wouldBlock) := by
    intro rest client _ _
    decide
  have hstep : AlwaysStep (next (fun _ => .ok fun _ => none) [])
      (fun s a => Step (fun _ => .ok fun _ => none) [] 0 (Net.AdmitsFinding 3) 3 s
        (s.next (fun _ => .ok fun _ => none) [] a)) s turns :=
    ⟨⟨(1, .wait [4]), nofun, rfl⟩,
      ⟨(0, .wait [3]), fun _ => ⟨⟨⟨rfl, by decide, by decide⟩, trivial⟩, trivial⟩, rfl⟩,
      ⟨(1, .handle .wouldBlock), nofun, rfl⟩,
      ⟨(0, .handle .wouldBlock), fun _ => ⟨⟨trivial, hfinds⟩, trivial⟩, rfl⟩, trivial⟩
  have hlast : (turns.foldl (next (fun _ => .ok fun _ => none) []) s 0).batch = [] ∧
      ((turns.foldl (next (fun _ => .ok fun _ => none) []) s 0).sockets 3).edge = false := by
    decide
  refine (message_served_iff () hadm Net.selfFramed_twoArrivals rfl (by rfl)
    ⟨EndlessRun.of_alwaysStep hstep, .of_last fun _ hact => hact.1 hlast.1,
      .of_last fun _ hact => ?_⟩).mpr ?_
  · obtain ⟨fds, hwait, hmem, -⟩ := hact
    have hset := (hwait.1.2.2 3 hmem).2
    rw [hlast.2] at hset
    cases hset
  · intro m
    match m with
    | 0 => exact fun _ _ => .inl (by decide)
    | 1 => exact fun _ _ => .inl (by decide)
    | 2 => exact fun _ _ => .inr (by decide)
    | 3 => exact fun _ _ => .inr (by decide)
    | m + 4 =>
        intro hreg
        rw [List.take_of_length_le (Nat.le_add_left 4 m)] at hreg
        exact absurd hreg (by decide)

end Nets

end Fion.Network
