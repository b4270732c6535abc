import Fion.Network.Client
import Mathlib.Logic.Function.Basic

/-!
# Pollers

The epoll implementation of `Poller`, by its interest list.  `epoll_ctl` refuses
to add a registered descriptor and to modify or remove an unregistered one.  It can also
fail for reasons that the interest list does not show, given as `fault`.
-/

namespace Fion.Network

open Cpp (Exn)

/-! ## Event masks -/

namespace PollerEvent

/-- `EPOLLIN`. -/
def READ : UInt32 := 0x001

/-- `EPOLLOUT`. -/
def WRITE : UInt32 := 0x004

/-- `EPOLLERR`. -/
def ERROR : UInt32 := 0x008

/-- `EPOLLHUP`. -/
def HANGUP : UInt32 := 0x010

/-- `EPOLLET`. -/
def EDGE_TRIGGERED : UInt32 := 0x80000000

end PollerEvent

/-! ## Pollers -/

/-- The reasons for which `epoll_ctl` fails. -/
inductive Errno where
  | EEXIST
  | ENOENT
  | EBADF
  | ENOMEM
  | ENOSPC
deriving DecidableEq, Repr

/-- `std::strerror`. -/
def Errno.strerror : Errno → String
  | .EEXIST => "File exists"
  | .ENOENT => "No such file or directory"
  | .EBADF => "Bad file descriptor"
  | .ENOMEM => "Cannot allocate memory"
  | .ENOSPC => "No space left on device"

/-- The class `Poller`: the interest list of its epoll instance. -/
structure Poller where
  interest : Fd → Option UInt32 := fun _ => none

namespace Poller

/-- The descriptor is in the interest list. -/
def Registered (p : Poller) (fd : Fd) : Prop := (p.interest fd).isSome = true

instance (p : Poller) (fd : Fd) : Decidable (p.Registered fd) :=
  inferInstanceAs (Decidable ((p.interest fd).isSome = true))

/-- The poller with one more descriptor. -/
def register (p : Poller) (fd : Fd) (events : UInt32) : Poller :=
  { interest := Function.update p.interest fd (some events) }

/-- The poller with one descriptor less. -/
def unregister (p : Poller) (fd : Fd) : Poller :=
  { interest := Function.update p.interest fd none }

/-- `addFD`. -/
def addFD (p : Poller) (fd : Fd) (events : UInt32) (fault : Option Errno := none) :
    Except Exn Poller :=
  match fault with
  | some e => .error (.runtimeError ("Failed to add fd to epoll: " ++ e.strerror))
  | none =>
      if p.Registered fd then
        .error (.runtimeError ("Failed to add fd to epoll: " ++ Errno.EEXIST.strerror))
      else .ok (p.register fd events)

/-- `modify_fd`. -/
def modifyFD (p : Poller) (fd : Fd) (events : UInt32) (fault : Option Errno := none) :
    Except Exn Poller :=
  match fault with
  | some e => .error (.runtimeError ("Failed to modify fd in epoll: " ++ e.strerror))
  | none =>
      if p.Registered fd then .ok (p.register fd events)
      else .error (.runtimeError ("Failed to modify fd in epoll: " ++ Errno.ENOENT.strerror))

/-- `removeFD`. -/
def removeFD (p : Poller) (fd : Fd) (fault : Option Errno := none) : Except Exn Poller :=
  match fault with
  | some e => .error (.runtimeError ("Failed to remove fd from epoll: " ++ e.strerror))
  | none =>
      if p.Registered fd then .ok (p.unregister fd)
      else .error (.runtimeError ("Failed to remove fd from epoll: " ++ Errno.ENOENT.strerror))

theorem addFD_of_not_registered {p : Poller} {fd : Fd} (h : ¬ p.Registered fd) (events : UInt32) :
    p.addFD fd events = .ok (p.register fd events) := by
  simp [addFD, h]

/-- Adding a registered descriptor throws, and so does adding one when `epoll_ctl`
reports an error. -/
theorem addFD_throws {p : Poller} {fd : Fd} {fault : Option Errno}
    (h : ¬ (fault = none ∧ ¬ p.Registered fd)) (events : UInt32) :
    ∃ e, p.addFD fd events fault = .error e := by
  cases fault with
  | some errno => exact ⟨_, rfl⟩
  | none =>
      have hregistered : p.Registered fd := by
        by_contra hnot
        exact h ⟨rfl, hnot⟩
      exact ⟨_, if_pos hregistered⟩

theorem modifyFD_of_registered {p : Poller} {fd : Fd} (h : p.Registered fd) (events : UInt32) :
    p.modifyFD fd events = .ok (p.register fd events) := by
  simp [modifyFD, h]

theorem removeFD_of_registered {p : Poller} {fd : Fd} (h : p.Registered fd) :
    p.removeFD fd = .ok (p.unregister fd) := by
  simp [removeFD, h]

/-- When adding succeeds, the descriptor is registered and nothing else changes. -/
theorem eq_register_of_addFD {p p' : Poller} {fd : Fd} {events : UInt32}
    (h : p.addFD fd events = .ok p') : p' = p.register fd events := by
  rw [addFD] at h
  split_ifs at h
  exact (Except.ok.inj h).symm

/-- When removing succeeds, the descriptor is unregistered and nothing else
changes. -/
theorem eq_unregister_of_removeFD {p p' : Poller} {fd : Fd} (h : p.removeFD fd = .ok p') :
    p' = p.unregister fd := by
  rw [removeFD] at h
  split_ifs at h
  exact (Except.ok.inj h).symm

@[simp] theorem registered_register_self (p : Poller) (fd : Fd) (events : UInt32) :
    (p.register fd events).Registered fd := by
  simp [Registered, register]

theorem registered_register_of_ne {p : Poller} {fd fd' : Fd} (h : fd' ≠ fd) (events : UInt32) :
    (p.register fd events).Registered fd' ↔ p.Registered fd' := by
  simp [Registered, register, h]

@[simp] theorem not_registered_unregister_self (p : Poller) (fd : Fd) :
    ¬ (p.unregister fd).Registered fd := by
  simp [Registered, unregister]

theorem registered_unregister_of_ne {p : Poller} {fd fd' : Fd} (h : fd' ≠ fd) :
    (p.unregister fd).Registered fd' ↔ p.Registered fd' := by
  simp [Registered, unregister, h]

end Poller

end Fion.Network
