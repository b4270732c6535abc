import Fion.Machine.Reach
import Fion.Network.Shutdown

/-!
# Starts that fail

What a call of `start` leaves behind, all of it at once: everything is set up when the
system calls of `bind` and `listen` succeed (`start_returns`), and when one of them fails
only the flag is set and a descriptor is stored (`start_throws`).

The flag alone decides what the next call does.  So along a run of calls it agrees with
the rest of the server exactly as long as no start fails (`consistent_iff`).
-/

namespace Fion.Network.Server

open Cpp (Exn)
open Machine (Always AlwaysStep)

variable {host : String} {port : UInt16} {calls : SocketCalls}

/-! ## What a start leaves behind -/

/-- The pools that are added have no threads yet. -/
theorem performAll_addPools (s : Server) (numThreads : Nat) (steps : List StartStep) :
    s.performAll host port calls (List.replicate numThreads .addPool ++ steps) =
      Server.performAll host port calls
        { s with pools := s.pools ++ List.replicate numThreads .none } steps := by
  induction numThreads generalizing s with
  | zero => simp
  | succ numThreads ih =>
      rw [List.replicate_succ, List.cons_append]
      simp only [performAll, perform]
      rw [ih]
      simp [List.replicate_succ, List.append_assoc]

/-- All pools are started, those of earlier starts too. -/
theorem performAll_poolSteps (s : Server) (numThreads : Nat) (hrunning : s.running = true) :
    s.performAll host port calls (poolSteps numThreads) =
      ({ s with
          pools := List.replicate (s.pools.length + numThreads) .looping
          acceptThread := .looping }, .ok ()) := by
  rw [poolSteps, performAll_addPools]
  simp [performAll, perform, hrunning, List.map_const', ← List.replicate_append_replicate]

theorem start_of_running {s : Server} (hrunning : s.running = true) (numThreads : Nat) :
    s.start host port calls numThreads = (s, .ok ()) :=
  if_pos hrunning

/-- A server that has been started. -/
def started (s : Server) (calls : SocketCalls) (numThreads : Nat) : Server where
  running := true
  listener := { listenFD := calls.socket, isListening := true }
  pools := List.replicate (s.pools.length + numThreads) .looping
  acceptThread := .looping

theorem start_returns {s : Server} (hstopped : s.running = false) (hbound : calls.Bound host)
    (hlisten : calls.listen = true) (numThreads : Nat) :
    s.start host port calls numThreads = (s.started calls numThreads, .ok ()) := by
  rw [start, if_neg (by simp [hstopped]), startSteps_eq, performAll_setFlag]
  obtain ⟨-, heq⟩ | ⟨hfails, -⟩ :=
    performAll_bind_cases host port calls (s.setRunning true) (poolSteps numThreads)
  · rw [heq, performAll_poolSteps _ _ rfl]
    rfl
  · simp [hbound, hlisten] at hfails

/-- A server whose start has failed. -/
def halfStarted (s : Server) (calls : SocketCalls) : Server :=
  (s.setRunning true).setListener { s.listener with listenFD := calls.socket }

theorem start_throws {s : Server} (hstopped : s.running = false)
    (hfails : ¬ (calls.Bound host ∧ calls.listen = true)) (numThreads : Nat) :
    ∃ e, s.start host port calls numThreads = (s.halfStarted calls, .error e) := by
  rw [start, if_neg (by simp [hstopped]), startSteps_eq, performAll_setFlag]
  obtain ⟨hreturns, -⟩ | ⟨-, e, heq⟩ :=
    performAll_bind_cases host port calls (s.setRunning true) (poolSteps numThreads)
  · exact absurd hreturns hfails
  · exact ⟨e, heq⟩

/-! ## What is expected of the calls -/

/-- A start whose system calls succeed binds, listens, adds its pools to those that are
there, and starts all of them and the accept thread. -/
def Startable (s : Server) : Prop :=
  ∀ (host : String) (port : UInt16) (calls : SocketCalls) (numThreads : Nat),
    calls.Bound host → calls.listen = true →
      s.start host port calls numThreads = (s.started calls numThreads, .ok ())

/-- The flag agrees with the listener and the accept thread, and a server that does not
listen can be started. -/
structure Consistent (s : Server) : Prop where
  flag : s.running = true ↔ s.listener.isListening = true ∧ s.acceptThread ≠ .none
  startable : s.listener.isListening = false → s.Startable

/-- A start that throws leaves the server stopped. -/
def StoppedByThrow (s : Server) : Call → Prop
  | .start host port calls numThreads =>
      ∀ s' e, s.start host port calls numThreads = (s', .error e) → s'.running = false
  | .stop => True

/-- A start of a server that is not running has system calls that all succeed. -/
def Succeeds (s : Server) : Call → Prop
  | .start host _ calls _ => s.running = true ∨ calls.Bound host ∧ calls.listen = true
  | .stop => True

/-! ## One call -/

theorem startable_of_stopped {s : Server} (hstopped : s.running = false) : s.Startable :=
  fun _ _ _ numThreads hbound hlisten => start_returns hstopped hbound hlisten numThreads

theorem TornDown.consistent {s : Server} (h : s.TornDown) : s.Consistent where
  flag := by simp [h.running, h.listener]
  startable := fun _ => startable_of_stopped h.running

theorem consistent_started (s : Server) (calls : SocketCalls) (numThreads : Nat) :
    (s.started calls numThreads).Consistent where
  flag := by simp [started]
  startable := fun h => by cases h

/-- After a start that fails the flag is set, but nothing listens. -/
theorem Calm.not_consistent_halfStarted {s : Server} (h : s.Calm) (hstopped : s.running = false)
    (calls : SocketCalls) : ¬ (s.halfStarted calls).Consistent := by
  intro hconsistent
  have hlistening : s.listener.isListening = true := (hconsistent.flag.mp rfl).1
  rw [(h.idle hstopped).listener] at hlistening
  cases hlistening

theorem Consistent.stop {s : Server} (h : s.Consistent) (hcalm : s.Calm) :
    s.stop.Consistent := by
  cases hrunning : s.running with
  | false =>
      rw [stop_of_not_running hrunning]
      exact h
  | true => exact (Server.tornDown_stop hrunning hcalm.descriptor).consistent

/-- A call keeps the flag in agreement exactly when no system call of it fails. -/
theorem consistent_call_iff {s : Server} (h : s.Consistent) (hcalm : s.Calm) (c : Call) :
    (s.call c).Consistent ↔ s.Succeeds c := by
  cases c with
  | stop => exact iff_of_true (h.stop hcalm) trivial
  | start host port calls numThreads =>
      cases hrunning : s.running with
      | true =>
          rw [call, start_of_running hrunning]
          exact iff_of_true h (.inl hrunning)
      | false =>
          by_cases hsucceeds : calls.Bound host ∧ calls.listen = true
          · rw [call, start_returns hrunning hsucceeds.1 hsucceeds.2]
            exact iff_of_true (consistent_started s calls numThreads) (.inr hsucceeds)
          · obtain ⟨e, hthrows⟩ : ∃ e, s.start host port calls numThreads =
                (s.halfStarted calls, .error e) := start_throws hrunning hsucceeds numThreads
            rw [call, hthrows]
            refine iff_of_false (hcalm.not_consistent_halfStarted hrunning calls) ?_
            simpa [Succeeds, hrunning] using hsucceeds

theorem Calm.call {s : Server} (h : s.Calm) (c : Call) : (s.call c).Calm := by
  cases c with
  | start host port calls numThreads => exact h.start host port calls numThreads
  | stop => exact h.stop

/-- A call whose system calls succeed does not throw. -/
theorem Succeeds.stoppedByThrow {s : Server} {c : Call} (h : s.Succeeds c) :
    s.StoppedByThrow c := by
  cases c with
  | stop => trivial
  | start host port calls numThreads =>
      intro s' e hthrows
      cases hrunning : s.running with
      | true =>
          rw [start_of_running hrunning] at hthrows
          cases hthrows
      | false =>
          obtain ⟨hbound, hlisten⟩ := h.resolve_left (by simp [hrunning])
          rw [start_returns hrunning hbound hlisten] at hthrows
          cases hthrows

/-! ## Runs of calls -/

/-- Along a run of calls of a new server, every start that throws leaves the server
stopped, and between two calls the flag agrees with the rest of the server and a server
that does not listen can be started, exactly when no start has a system call that
fails. -/
theorem consistent_iff (history : List Call) :
    Always call Consistent {} history ∧ AlwaysStep call StoppedByThrow {} history ↔
      AlwaysStep call Succeeds {} history := by
  have hempty : ({} : Server).Consistent := (calm_empty.idle rfl).consistent
  have hadmitted : AlwaysStep call (fun _ _ => True) {} history :=
    AlwaysStep.of_forall fun _ _ => trivial
  have halways : Always call Consistent {} history ↔ AlwaysStep call Succeeds {} history :=
    Machine.always_iff_of_ok
      (fun s c (h : s.Calm ∧ s.Consistent) _ hsucceeds =>
        ⟨h.1.call c, (consistent_call_iff h.2 h.1 c).mpr hsucceeds⟩)
      (fun s c h _ => consistent_call_iff h.2 h.1 c) ⟨calm_empty, hempty⟩ hempty hadmitted
  rw [halways]
  exact and_iff_left_of_imp fun h => h.imp fun _ _ => Succeeds.stoppedByThrow

/-- The address is in use when the server is started: `start` throws, but the flag stays
set, and once the address is free the next start returns without doing anything. -/
theorem bindFails_leaves_running :
    ∃ s e, Server.start "0.0.0.0" 8080 { bind := false } {} 4 = (s, .error e) ∧
      s.running = true ∧ s.listener.isListening = false ∧ s.acceptThread = .none ∧
      s.start "0.0.0.0" 8080 {} 4 = (s, .ok ()) ∧
      let history := [Call.start "0.0.0.0" 8080 { bind := false } 4]
      ¬ (Always call Consistent {} history ∧ AlwaysStep call StoppedByThrow {} history) := by
  refine ⟨_, _, rfl, rfl, rfl, rfl, rfl, ?_⟩
  intro history h
  have hstopped : StoppedByThrow {} (.start "0.0.0.0" 8080 { bind := false } 4) := h.2.1
  cases hstopped _ _ rfl

end Fion.Network.Server
