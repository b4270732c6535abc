import Fion.Cpp.Strings

/-!
# The listener

The class `Listener`, as far as its descriptor goes: its `_address` is only passed on to
the kernel.  What the system calls of `bind` and `listen` return is a parameter.  A
call that throws leaves what it has done so far.
-/

namespace Fion.Network

open Cpp (Exn)

/-- What the system calls of `bind` and `listen` return. -/
structure SocketCalls where
  /-- The new descriptor, or a negative number. -/
  socket : Int := 3
  /-- Whether a call succeeds. -/
  setsockopt : Bool := true
  fcntl : Bool := true
  inetPton : Bool := true
  bind : Bool := true
  listen : Bool := true
  /-- `std::strerror(errno)` behind the call that fails. -/
  strerror : String := ""

/-- All system calls of `bind` for this host succeed. -/
structure SocketCalls.Bound (calls : SocketCalls) (host : String) : Prop where
  socket : 0 ≤ calls.socket
  setsockopt : calls.setsockopt = true
  fcntl : calls.fcntl = true
  address : host = "0.0.0.0" ∨ host = "" ∨ calls.inetPton = true
  bind : calls.bind = true

theorem SocketCalls.Bound.accepts_address {calls : SocketCalls} {host : String}
    (h : calls.Bound host) : ¬ (host ≠ "0.0.0.0" ∧ host ≠ "" ∧ calls.inetPton = false) := by
  rintro ⟨hany, hempty, hpton⟩
  have haddress := h.address
  rw [hpton] at haddress
  exact (haddress.resolve_left hany).elim hempty Bool.false_ne_true

/-- The class `Listener`. -/
structure Listener where
  listenFD : Int := -1
  isListening : Bool := false

namespace Listener

/-- `bind`. -/
def bind (l : Listener) (host : String) (port : UInt16) (calls : SocketCalls) :
    Listener × Except Exn Unit :=
  ({ l with listenFD := calls.socket },
    if calls.socket < 0 then
      .error (.runtimeError ("Failed to create socket: " ++ calls.strerror))
    else if !calls.setsockopt then
      .error (.runtimeError ("Failed to set SO_REUSEADDR: " ++ calls.strerror))
    else if !calls.fcntl then
      .error (.runtimeError ("Failed to set non-blocking: " ++ calls.strerror))
    else if host ≠ "0.0.0.0" ∧ host ≠ "" ∧ calls.inetPton = false then
      .error (.runtimeError ("Invalid address: " ++ host))
    else if !calls.bind then
      .error (.runtimeError
        ("Failed to bind to " ++ host ++ ":" ++ toString port ++ ": " ++ calls.strerror))
    else .ok ())

/-- `listen`. -/
def listen (l : Listener) (calls : SocketCalls) : Listener × Except Exn Unit :=
  if l.listenFD < 0 then (l, .error (.runtimeError "Socket not bound"))
  else if !calls.listen then
    (l, .error (.runtimeError ("Failed to listen: " ++ calls.strerror)))
  else ({ l with isListening := true }, .ok ())

/-- `close`. -/
def close (l : Listener) : Listener :=
  if 0 ≤ l.listenFD then { l with listenFD := -1, isListening := false } else l

/-! ## When they return -/

section

variable {host : String} {calls : SocketCalls}

theorem bind_returns (l : Listener) (port : UInt16) (h : calls.Bound host) :
    l.bind host port calls = ({ l with listenFD := calls.socket }, .ok ()) := by
  have haddress := h.accepts_address
  simp [bind, Int.not_lt.mpr h.socket, h.setsockopt, h.fcntl, h.bind, haddress]

theorem bind_throws (l : Listener) (port : UInt16) (h : ¬ calls.Bound host) :
    ∃ e, l.bind host port calls = ({ l with listenFD := calls.socket }, .error e) := by
  unfold bind
  split
  · exact ⟨_, rfl⟩
  split
  · exact ⟨_, rfl⟩
  split
  · exact ⟨_, rfl⟩
  split
  · exact ⟨_, rfl⟩
  split
  · exact ⟨_, rfl⟩
  next hsocket hsetsockopt hfcntl haddress hbind =>
    have haddress' : host = "0.0.0.0" ∨ host = "" ∨ calls.inetPton = true := by
      by_contra hnone
      obtain ⟨hany, hempty, hpton⟩ := not_or.mp hnone |>.imp_right not_or.mp
      exact haddress ⟨hany, hempty, Bool.eq_false_of_not_eq_true hpton⟩
    exact absurd ⟨Int.not_lt.mp hsocket, by simpa using hsetsockopt, by simpa using hfcntl,
      haddress', by simpa using hbind⟩ h

theorem listen_returns (l : Listener) (hfd : 0 ≤ l.listenFD) (h : calls.listen = true) :
    l.listen calls = ({ l with isListening := true }, .ok ()) := by
  simp [listen, Int.not_lt.mpr hfd, h]

/-- Without a descriptor, or when the system call fails, `listen` throws and changes
nothing. -/
theorem listen_throws (l : Listener) (calls : SocketCalls)
    (h : l.listenFD < 0 ∨ calls.listen = false) : ∃ e, l.listen calls = (l, .error e) := by
  unfold listen
  split
  · exact ⟨_, rfl⟩
  next hfd =>
    rw [h.resolve_left hfd]
    exact ⟨_, rfl⟩

theorem listenFD_close (l : Listener) : l.close.listenFD < 0 := by
  unfold close
  split
  · exact Int.negSucc_lt_zero 0
  next hfd => exact Int.not_le.mp hfd

theorem isListening_close {l : Listener} (h : l.isListening = true → 0 ≤ l.listenFD) :
    l.close.isListening = false := by
  unfold close
  split
  · rfl
  next hfd =>
    cases hlistening : l.isListening with
    | false => rfl
    | true => exact absurd (h hlistening) hfd

end

end Listener

end Fion.Network
