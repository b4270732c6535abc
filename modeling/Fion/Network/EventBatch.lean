import Fion.Machine.ForEach
import Fion.Network.PoolInvariant

/-!
# One iteration of the event loop

`EventLoop::run` polls once in an iteration and calls its callback for the events that
the poller returns.  The `try` block stands around both, so an exception that the callback
throws for one event ends the batch, and the rest of it is lost: `iterate_called_iff` says
that the whole batch is handled exactly when the callback returns for every event but the
last.

The callback of a pool returns for every event (`pool_called`).
-/

namespace Fion.Network

open Cpp (Exn)
open Machine (Returns forEach)

/-- The class `PollerEventData`. -/
structure PollerEventData where
  fd : Fd
  events : UInt32
deriving DecidableEq

/-- The result of `epoll_wait`. -/
inductive WaitResult where
  | ready (events : List PollerEventData)
  /-- `EINTR`. -/
  | interrupted
  | failed (strerror : String)

namespace EventLoop

variable {σ : Type}

/-- `EventCallback`: it reads and changes a state, and returns or throws a
`std::exception`. -/
abbrev Callback (σ : Type) := Fd → UInt32 → σ → Except Exn Unit × σ

/-- `Poller::poll`. -/
def poll : WaitResult → Except Exn (List PollerEventData)
  | .ready events => .ok events
  | .interrupted => .ok []
  | .failed strerror => .error (.runtimeError ("epoll_wait failed: " ++ strerror))

/-- What an iteration leaves behind. -/
structure Iteration (σ : Type) where
  state : σ
  /-- The events that the callback was called for. -/
  called : List PollerEventData
  /-- The exception that is caught and logged. -/
  caught : Option Exn

/-- The body of the loop in `run`; without a callback nothing is called. -/
def iterate (callback : Option (Callback σ)) (wait : WaitResult) (s : σ) : Iteration σ :=
  match poll wait with
  | .error e => ⟨s, [], some e⟩
  | .ok events =>
      match callback with
      | none => ⟨s, [], none⟩
      | some f =>
          let looped := forEach (fun event => f event.fd event.events) events s
          ⟨looped.state, looped.called,
            match looped.result with
            | .ok _ => none
            | .error e => some e⟩

/-- One iteration calls the callback once for each event of the batch, in order, exactly
when the callback returns for every event but the last. -/
theorem iterate_called_iff (f : Callback σ) (events : List PollerEventData) (s : σ) :
    (iterate (some f) (.ready events) s).called = events ↔
      ∃ s', Returns (fun event : PollerEventData => f event.fd event.events) events.dropLast s s' :=
  Machine.called_eq_iff

/-- Whatever the callback does, it is called for the first events of the batch, in order
and once for each. -/
theorem iterate_called_prefix (f : Callback σ) (events : List PollerEventData) (s : σ) :
    (iterate (some f) (.ready events) s).called <+: events :=
  Machine.called_prefix events s

/-- A callback that throws for one descriptor. -/
def failsAt (fd : Fd) : Callback Unit := fun fd' _ s =>
  if fd' = fd then (.error (.runtimeError "Failed to remove fd from epoll: "), s) else (.ok (), s)

/-- The second connection of a batch loses its event when the first one fails. -/
theorem iterate_loses_event :
    ¬ ∀ (f : Callback Unit) (events : List PollerEventData) (s : Unit),
      (iterate (some f) (.ready events) s).called = events := by
  intro h
  have hlost := h (failsAt 5) [⟨5, PollerEvent.READ⟩, ⟨6, PollerEvent.READ⟩] ()
  exact absurd hlost (by decide)

/-! ## The callback of a pool -/

section Routed

variable {W : Type} (regex : RegexEngine) (routes : List (Route W))

/-- The callback that `Pool::run` sets, with what `recv` and `send` return for each
descriptor. -/
def poolCallback (recv : Fd → RecvResult) (send : Fd → SendResult) : Callback (Pool W) :=
  fun fd events p => p.handleClientEvent regex routes fd events (recv fd) (send fd)

/-- A pool handles every event of a batch. -/
theorem pool_called {p : Pool W} (h : p.Consistent) (recv : Fd → RecvResult)
    (send : Fd → SendResult) (events : List PollerEventData) :
    let iteration := iterate (some (poolCallback regex routes recv send)) (.ready events) p
    iteration.called = events ∧ iteration.caught = none ∧ iteration.state.Consistent := by
  have hreturns : ∃ p', Returns (fun event : PollerEventData =>
      poolCallback regex routes recv send event.fd event.events) events p p' ∧ p'.Consistent := by
    induction events generalizing p with
    | nil => exact ⟨p, .nil p, h⟩
    | cons event events ih =>
        obtain ⟨p', heq, hp'⟩ := Pool.consistent_handleClientEvent regex routes h event.fd
          event.events (recv event.fd) (send event.fd)
        obtain ⟨p'', hrest, hp''⟩ := ih hp'
        exact ⟨p'', .cons heq hrest, hp''⟩
  obtain ⟨p', hall, hp'⟩ := hreturns
  intro iteration
  have hiteration : iteration = ⟨p', events, none⟩ := by
    show iterate _ _ _ = _
    simp only [iterate, poll, Machine.forEach_of_returns hall]
  rw [hiteration]
  exact ⟨rfl, rfl, hp'⟩

end Routed

end EventLoop

end Fion.Network
