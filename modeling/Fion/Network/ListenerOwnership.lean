import Fion.Machine.Custody
import Fion.Machine.Reach
import Fion.Network.Listener

/-!
# Who closes a listening socket

Any number of `Listener`s are constructed, bound, moved, closed and destroyed in any
order, and every system call may fail.  The kernel keeps a ledger of the descriptors
that `socket` has returned; a Listener has nothing but the number in its `_listenFD`.

The number is custody of the descriptor: `close` and the destructor drop it
(`custody_close`, `custody_destroy`), and the moves hand it over
(`custody_moveConstruct`, `custody_moveAssign`).  `bind` is the exception.  It overwrites
the number of a Listener that is bound already, whose descriptor is lost, and its exits
behind `socket` close the descriptor and keep the number.  A run without these two owns
its sockets, and of the runs that end with all Listeners destroyed no other one does
(`ownsSockets_iff`).
-/

namespace Fion.Network

open Cpp (Exn)
open Machine (Ledger Custody Always AlwaysStep)

/-! ## Descriptors -/

namespace Listener

/-- What `bind` does to the open descriptors.  The exits behind `socket` close the new
one. -/
def bindSockets (host : String) (calls : SocketCalls) (sockets : Ledger Int) : Ledger Int :=
  if calls.socket < 0 then sockets
  else if !calls.setsockopt then (sockets.acquire calls.socket).release calls.socket
  else if !calls.fcntl then (sockets.acquire calls.socket).release calls.socket
  else if host ≠ "0.0.0.0" ∧ host ≠ "" ∧ calls.inetPton = false then
    (sockets.acquire calls.socket).release calls.socket
  else if !calls.bind then (sockets.acquire calls.socket).release calls.socket
  else sockets.acquire calls.socket

/-- What `close` does to them. -/
def closeSockets (l : Listener) (sockets : Ledger Int) : Ledger Int :=
  if 0 ≤ l.listenFD then sockets.release l.listenFD else sockets

/-- What the move constructor and the move assignment leave behind. -/
def movedFrom (l : Listener) : Listener := { l with listenFD := -1, isListening := false }

/-- The descriptor that the destructor would close. -/
def descriptor (l : Listener) : Option Int :=
  if 0 ≤ l.listenFD then some l.listenFD else none

/-- The unbound state: nothing is to be listened on. -/
def Unbound (l : Listener) : Prop :=
  l.isListening = false ∧ ∀ calls, l.listen calls = (l, .error (.runtimeError "Socket not bound"))

/-- A Listener that listens has a descriptor. -/
def Valid (l : Listener) : Prop := l.isListening = true → 0 ≤ l.listenFD

section

variable {l : Listener} {host : String} {calls : SocketCalls} {sockets : Ledger Int}

theorem descriptor_of_nonneg (h : 0 ≤ l.listenFD) : l.descriptor = some l.listenFD := if_pos h

theorem descriptor_of_neg (h : l.listenFD < 0) : l.descriptor = none :=
  if_neg (Int.not_le.mpr h)

theorem listenFD_of_descriptor {fd : Int} (h : l.descriptor = some fd) : l.listenFD = fd := by
  by_cases hfd : 0 ≤ l.listenFD
  · rw [descriptor_of_nonneg hfd] at h
    exact Option.some.inj h
  · rw [descriptor_of_neg (Int.not_le.mp hfd)] at h
    cases h

theorem listenFD_listen (l : Listener) (calls : SocketCalls) :
    (l.listen calls).1.listenFD = l.listenFD := by
  unfold listen
  split
  · rfl
  split
  · rfl
  · rfl

theorem descriptor_listen (l : Listener) (calls : SocketCalls) :
    (l.listen calls).1.descriptor = l.descriptor := by
  rw [descriptor, descriptor, listenFD_listen]

theorem descriptor_close (l : Listener) : l.close.descriptor = none :=
  descriptor_of_neg (listenFD_close l)

theorem descriptor_movedFrom (l : Listener) : l.movedFrom.descriptor = none := rfl

/-- A Listener is unbound when it has no descriptor and does not listen. -/
theorem unbound_iff : l.Unbound ↔ l.listenFD < 0 ∧ l.isListening = false := by
  constructor
  · rintro ⟨hlistening, hlisten⟩
    refine ⟨Int.not_le.mp fun hfd => ?_, hlistening⟩
    have hreturns := (hlisten {}).symm.trans (listen_returns l hfd rfl)
    cases (Prod.mk.inj hreturns).2
  · rintro ⟨hfd, hlistening⟩
    exact ⟨hlistening, fun calls => by rw [listen, if_pos hfd]⟩

/-! ## Valid Listeners -/

theorem Valid.isListening (h : l.Valid) (hfd : l.listenFD < 0) : l.isListening = false := by
  cases hlistening : l.isListening with
  | false => rfl
  | true => exact absurd (h hlistening) (Int.not_le.mpr hfd)

theorem valid_of_not_listening (h : l.isListening = false) : l.Valid := fun hlistening => by
  rw [h] at hlistening
  cases hlistening

theorem Valid.listen (h : l.Valid) (calls : SocketCalls) : (l.listen calls).1.Valid := by
  unfold Listener.listen
  split
  · exact h
  next hfd =>
    split
    · exact h
    · exact fun _ => Int.not_lt.mp hfd

theorem Valid.close (h : l.Valid) : l.close.Valid :=
  valid_of_not_listening (isListening_close h)

/-! ## The exits of `bind` -/

theorem bindSockets_of_neg (h : calls.socket < 0) : bindSockets host calls sockets = sockets :=
  if_pos h

theorem bindSockets_of_bound (h : calls.Bound host) :
    bindSockets host calls sockets = sockets.acquire calls.socket := by
  have haddress := h.accepts_address
  simp [bindSockets, Int.not_lt.mpr h.socket, h.setsockopt, h.fcntl, h.bind, haddress]

/-- A descriptor that is outstanding stays so: `bind` has another one. -/
theorem outstanding_bindSockets {fd : Int} {r : Nat} (h : sockets.Outstanding fd r)
    (hfree : 0 ≤ calls.socket → sockets.holder calls.socket = none) :
    (bindSockets host calls sockets).Outstanding fd r := by
  unfold bindSockets
  split
  · exact h
  next hsocket =>
    have hnone := hfree (Int.not_lt.mp hsocket)
    have hne : calls.socket ≠ fd := fun heq => by
      rw [heq, h.held] at hnone
      cases hnone
    have hacquired := h.acquire hnone
    have hclosed := hacquired.release hne
    split
    · exact hclosed
    split
    · exact hclosed
    split
    · exact hclosed
    split
    · exact hclosed
    · exact hacquired

end

end Listener

/-! ## Calls -/

/-- The Listeners of a process, under numbers of their own. -/
structure Listeners where
  /-- Those between their construction and their destruction. -/
  alive : Nat → Option Listener := fun _ => none
  /-- The descriptors that `socket` has returned. -/
  sockets : Ledger Int := {}
  /-- How often `listen` was called on a descriptor that is not open. -/
  strayListens : Nat := 0
  /-- The Listener whose `bind` was the last call, when it has thrown. -/
  failed : Option Nat := none

/-- A call of a member function. -/
inductive ListenerCall where
  | construct (i : Nat)
  | bind (i : Nat) (host : String) (port : UInt16) (calls : SocketCalls)
  | listen (i : Nat) (calls : SocketCalls)
  | close (i : Nat)
  | moveConstruct (i other : Nat)
  | moveAssign (i other : Nat)
  | destroy (i : Nat)

namespace Listeners

/-- The Listener `i` becomes `l`, and the last call was no `bind` that has thrown. -/
def set (s : Listeners) (i : Nat) (l : Option Listener) : Listeners :=
  { s with alive := Function.update s.alive i l, failed := none }

@[simp] theorem alive_set_self (s : Listeners) (i : Nat) (l : Option Listener) :
    (s.set i l).alive i = l := Function.update_self ..

theorem alive_set_of_ne {s : Listeners} {i j : Nat} (h : j ≠ i) (l : Option Listener) :
    (s.set i l).alive j = s.alive j := Function.update_of_ne h ..

/-- `bind`. -/
def bind (s : Listeners) (i : Nat) (l : Listener) (host : String) (port : UInt16)
    (calls : SocketCalls) : Listeners :=
  let bound := l.bind host port calls
  { s.set i (some bound.1) with
    sockets := Listener.bindSockets host calls s.sockets
    failed := match bound.2 with
      | .ok _ => none
      | .error _ => some i }

/-- `listen`. -/
def listen (s : Listeners) (i : Nat) (l : Listener) (calls : SocketCalls) : Listeners :=
  { s.set i (some (l.listen calls).1) with
    strayListens :=
      if 0 ≤ l.listenFD ∧ s.sockets.holder l.listenFD = none then s.strayListens + 1
      else s.strayListens }

/-- `close`. -/
def close (s : Listeners) (i : Nat) (l : Listener) : Listeners :=
  { s.set i (some l.close) with sockets := l.closeSockets s.sockets }

/-- The move constructor. -/
def moveConstruct (s : Listeners) (i other : Nat) (l : Listener) : Listeners :=
  (s.set i (some { listenFD := l.listenFD, isListening := l.isListening })).set other
    (some l.movedFrom)

/-- The move assignment to another Listener, which closes its own descriptor first. -/
def moveAssign (s : Listeners) (i other : Nat) (target l : Listener) : Listeners :=
  ((s.close i target).set i
    (some { target.close with listenFD := l.listenFD, isListening := l.isListening })).set other
    (some l.movedFrom)

/-- The destructor. -/
def destroy (s : Listeners) (i : Nat) (l : Listener) : Listeners :=
  (s.close i l).set i none

/-- One call. -/
def next (s : Listeners) : ListenerCall → Listeners
  | .construct i => s.set i (some {})
  | .bind i host port calls =>
      match s.alive i with
      | some l => s.bind i l host port calls
      | none => s
  | .listen i calls =>
      match s.alive i with
      | some l => s.listen i l calls
      | none => s
  | .close i =>
      match s.alive i with
      | some l => s.close i l
      | none => s
  | .moveConstruct i other =>
      match s.alive other with
      | some l => s.moveConstruct i other l
      | none => s
  | .moveAssign i other =>
      match s.alive i, s.alive other with
      | some target, some l =>
          if i = other then { s with failed := none } else s.moveAssign i other target l
      | _, _ => s
  | .destroy i =>
      match s.alive i with
      | some l => s.destroy i l
      | none => s

/-- The calls that a program can make: on Listeners that are there, and `socket` returns
no number that is in use. -/
def Admits (s : Listeners) : ListenerCall → Prop
  | .construct i => s.alive i = none
  | .bind i _ _ calls =>
      (∃ l, s.alive i = some l) ∧
        (0 ≤ calls.socket → s.sockets.holder calls.socket = none)
  | .listen i _ => ∃ l, s.alive i = some l
  | .close i => ∃ l, s.alive i = some l
  | .moveConstruct i other => s.alive i = none ∧ ∃ l, s.alive other = some l
  | .moveAssign i other => (∃ l, s.alive i = some l) ∧ ∃ l, s.alive other = some l
  | .destroy i => ∃ l, s.alive i = some l

/-- The Listeners own their sockets: each descriptor was closed exactly once when all
Listeners are destroyed, none was closed or listened on that is not open, and a `bind`
that throws leaves its Listener unbound. -/
structure OwnsSockets (s : Listeners) : Prop where
  closedOnce : (∀ i, s.alive i = none) → ∀ r < s.sockets.issued, s.sockets.releases r = 1
  noStrayClose : s.sockets.strays = 0
  noStrayListen : s.strayListens = 0
  unbound : ∀ i l, s.failed = some i → s.alive i = some l → l.Unbound

/-- A `bind` is called on a Listener without a descriptor, and throws only if `socket`
fails. -/
def Clean (s : Listeners) : ListenerCall → Prop
  | .bind i host _ calls =>
      (∀ l, s.alive i = some l → l.listenFD < 0) ∧ (calls.socket < 0 ∨ calls.Bound host)
  | _ => True

/-! ## Custody -/

/-- The descriptors the Listeners would close, and the open ones. -/
def custody (s : Listeners) : Custody Nat Int where
  name := fun i => (s.alive i).bind Listener.descriptor
  ledger := s.sockets

theorem name_custody {s : Listeners} {i : Nat} {l : Listener} (h : s.alive i = some l) :
    s.custody.name i = l.descriptor := by
  show (s.alive i).bind Listener.descriptor = l.descriptor
  rw [h, Option.bind_some]

theorem name_custody_of_none {s : Listeners} {i : Nat} (h : s.alive i = none) :
    s.custody.name i = none := by
  show (s.alive i).bind Listener.descriptor = none
  rw [h, Option.bind_none]

theorem custody_set (s : Listeners) (i : Nat) (l : Option Listener) :
    (s.set i l).custody = s.custody.overwrite i (l.bind Listener.descriptor) := by
  rw [custody, custody, Custody.overwrite]
  congr 1
  funext j
  exact Function.apply_update (fun _ (o : Option Listener) => o.bind Listener.descriptor)
    s.alive i l j

theorem custody_construct {s : Listeners} {i : Nat} (h : s.alive i = none) :
    (s.set i (some {})).custody = s.custody := by
  rw [custody_set]
  show s.custody.overwrite i none = s.custody
  rw [← name_custody_of_none h, Custody.overwrite_name]

/-- `bind` overwrites the number. -/
theorem custody_bind (s : Listeners) (i : Nat) (l : Listener) (host : String) (port : UInt16)
    (calls : SocketCalls) : (s.bind i l host port calls).custody =
      { s.custody.overwrite i (l.bind host port calls).1.descriptor with
        ledger := Listener.bindSockets host calls s.sockets } := by
  have hset := custody_set s i (some (l.bind host port calls).1)
  rw [Option.bind_some] at hset
  rw [← hset]
  rfl

theorem custody_listen {s : Listeners} {i : Nat} {l : Listener} (h : s.alive i = some l)
    (calls : SocketCalls) : (s.listen i l calls).custody = s.custody := by
  have hset := custody_set s i (some (l.listen calls).1)
  rw [Option.bind_some, Listener.descriptor_listen, ← name_custody h,
    Custody.overwrite_name] at hset
  exact hset

/-- `close` drops the descriptor. -/
theorem custody_close {s : Listeners} {i : Nat} {l : Listener} (h : s.alive i = some l) :
    (s.close i l).custody = s.custody.drop i := by
  have hset := custody_set s i (some l.close)
  rw [Option.bind_some, Listener.descriptor_close] at hset
  have hclose : (s.close i l).custody =
      { s.custody.overwrite i none with ledger := l.closeSockets s.sockets } := by
    rw [← hset]
    rfl
  have hname := name_custody h
  rw [hclose, Listener.closeSockets]
  by_cases hfd : 0 ≤ l.listenFD
  · rw [Listener.descriptor_of_nonneg hfd] at hname
    rw [Custody.drop_of_some hname, if_pos hfd]
    rfl
  · rw [Listener.descriptor_of_neg (Int.not_le.mp hfd)] at hname
    rw [Custody.drop_of_none hname, if_neg hfd]
    exact (congrArg _ hname.symm).trans (Custody.overwrite_name s.custody i)

/-- The destructor drops it too. -/
theorem custody_destroy {s : Listeners} {i : Nat} {l : Listener} (h : s.alive i = some l) :
    (s.destroy i l).custody = s.custody.drop i := by
  rw [destroy, custody_set, custody_close h, Option.bind_none,
    ← Custody.name_drop_self s.custody i, Custody.overwrite_name]

/-- The move constructor hands it over. -/
theorem custody_moveConstruct {s : Listeners} {i other : Nat} {l : Listener}
    (h : s.alive other = some l) :
    (s.moveConstruct i other l).custody = s.custody.give other i := by
  rw [moveConstruct, custody_set, custody_set, Option.bind_some, Option.bind_some,
    Listener.descriptor_movedFrom, Custody.give, name_custody h, Listener.descriptor]

/-- The move assignment drops the descriptor of its target first. -/
theorem custody_moveAssign {s : Listeners} {i other : Nat} {target l : Listener}
    (hne : i ≠ other) (htarget : s.alive i = some target) (h : s.alive other = some l) :
    (s.moveAssign i other target l).custody = (s.custody.drop i).give other i := by
  rw [moveAssign, custody_set, custody_set, custody_close htarget, Option.bind_some,
    Option.bind_some, Listener.descriptor_movedFrom, Custody.give,
    Custody.name_drop_of_ne hne.symm, name_custody h, Listener.descriptor]

/-! ## Runs that own their sockets -/

/-- The descriptors are in custody, no Listener listens without one, and a `bind` that
throws leaves none behind. -/
structure Inv (s : Listeners) : Prop where
  kept : s.custody.Kept
  noStrayListen : s.strayListens = 0
  valid : ∀ i l, s.alive i = some l → l.Valid
  unbound : ∀ i l, s.failed = some i → s.alive i = some l → l.Unbound

theorem inv_empty : Inv {} where
  kept := Custody.kept_empty
  noStrayListen := rfl
  valid := nofun
  unbound := nofun

theorem Inv.ownsSockets {s : Listeners} (h : s.Inv) : s.OwnsSockets where
  closedOnce := fun hnone _ hr =>
    h.kept.released_of_none (fun i => name_custody_of_none (hnone i)) hr
  noStrayClose := h.kept.sound.aimed
  noStrayListen := h.noStrayListen
  unbound := h.unbound

theorem valid_set {s : Listeners} (hs : ∀ i l, s.alive i = some l → l.Valid) (i : Nat)
    {new : Option Listener} (hnew : ∀ l, new = some l → l.Valid) :
    ∀ j l, (s.set i new).alive j = some l → l.Valid := by
  intro j l hl
  by_cases hji : j = i
  · rw [hji, alive_set_self] at hl
    exact hnew l hl
  · rw [alive_set_of_ne hji] at hl
    exact hs j l hl

section Steps

variable {s : Listeners} {i : Nat} {l : Listener}

/-- A `bind` on a Listener without a descriptor takes the new one or, when `socket`
fails, changes nothing. -/
theorem Inv.bind (h : s.Inv) (hl : s.alive i = some l) (hfd : l.listenFD < 0) {host : String}
    (port : UInt16) {calls : SocketCalls}
    (hfree : 0 ≤ calls.socket → s.sockets.holder calls.socket = none)
    (hcalls : calls.socket < 0 ∨ calls.Bound host) :
    (s.bind i l host port calls).Inv := by
  have hlistening : l.isListening = false := (h.valid i l hl).isListening hfd
  have hname : s.custody.name i = none := (name_custody hl).trans (Listener.descriptor_of_neg hfd)
  have hvalid : ∀ j l', (s.bind i l host port calls).alive j = some l' → l'.Valid :=
    valid_set h.valid i fun l' hl' => by
      obtain rfl := Option.some.inj hl'
      exact Listener.valid_of_not_listening hlistening
  have hcustody := custody_bind s i l host port calls
  rcases hcalls with hneg | hbound
  · obtain ⟨e, he⟩ := l.bind_throws port fun hbound : calls.Bound host =>
      Int.not_le.mpr hneg hbound.socket
    have hkept : (s.bind i l host port calls).custody = s.custody := by
      rw [hcustody, he, Listener.bindSockets_of_neg hneg, Listener.descriptor_of_neg hneg,
        ← hname]
      exact Custody.overwrite_name s.custody i
    refine ⟨hkept ▸ h.kept, h.noStrayListen, hvalid, ?_⟩
    intro j l' hj hl'
    have hji : j = i := by
      rw [Listeners.bind, he] at hj
      exact (Option.some.inj hj).symm
    have hl'eq : l' = { l with listenFD := calls.socket } := by
      rw [Listeners.bind, he, hji, alive_set_self] at hl'
      exact (Option.some.inj hl').symm
    rw [hl'eq]
    exact Listener.unbound_iff.mpr ⟨hneg, hlistening⟩
  · have hreturns := l.bind_returns port hbound
    have htake : (s.bind i l host port calls).custody = s.custody.take i calls.socket := by
      rw [hcustody, hreturns, Listener.bindSockets_of_bound hbound,
        Listener.descriptor_of_nonneg hbound.socket]
      rfl
    refine ⟨htake ▸ h.kept.take hname (hfree hbound.socket), h.noStrayListen, hvalid, ?_⟩
    intro j l' hj
    rw [Listeners.bind, hreturns] at hj
    cases hj

/-- `listen` listens on nothing but the descriptor of the Listener. -/
theorem Inv.listen (h : s.Inv) (hl : s.alive i = some l) (calls : SocketCalls) :
    (s.listen i l calls).Inv := by
  have hopen : ¬ (0 ≤ l.listenFD ∧ s.sockets.holder l.listenFD = none) := by
    rintro ⟨hfd, hnone⟩
    obtain ⟨r, hr⟩ := h.kept.held i l.listenFD
      ((name_custody hl).trans (Listener.descriptor_of_nonneg hfd))
    cases hnone.symm.trans hr
  refine ⟨custody_listen hl calls ▸ h.kept, (if_neg hopen).trans h.noStrayListen, ?_, nofun⟩
  refine valid_set h.valid i fun l' hl' => ?_
  obtain rfl := Option.some.inj hl'
  exact (h.valid i l hl).listen calls

theorem Inv.close (h : s.Inv) (hl : s.alive i = some l) : (s.close i l).Inv := by
  refine ⟨custody_close hl ▸ h.kept.drop i, h.noStrayListen, ?_, nofun⟩
  refine valid_set h.valid i fun l' hl' => ?_
  obtain rfl := Option.some.inj hl'
  exact (h.valid i l hl).close

theorem Inv.destroy (h : s.Inv) (hl : s.alive i = some l) : (s.destroy i l).Inv :=
  ⟨custody_destroy hl ▸ h.kept.drop i, h.noStrayListen,
    valid_set (h.close hl).valid i nofun, nofun⟩

theorem Inv.moveConstruct (h : s.Inv) (hi : s.alive i = none) {other : Nat}
    (hl : s.alive other = some l) : (s.moveConstruct i other l).Inv := by
  refine ⟨custody_moveConstruct hl ▸ h.kept.give other (name_custody_of_none hi),
    h.noStrayListen, ?_, nofun⟩
  refine valid_set (valid_set h.valid i fun l' hl' => ?_) other fun l' hl' => ?_
  · obtain rfl := Option.some.inj hl'
    exact h.valid other l hl
  · obtain rfl := Option.some.inj hl'
    exact Listener.valid_of_not_listening rfl

theorem Inv.moveAssign (h : s.Inv) {other : Nat} (hne : i ≠ other) {target : Listener}
    (htarget : s.alive i = some target) (hl : s.alive other = some l) :
    (s.moveAssign i other target l).Inv := by
  refine ⟨custody_moveAssign hne htarget hl ▸
    (h.kept.drop i).give other (Custody.name_drop_self s.custody i), h.noStrayListen, ?_, nofun⟩
  refine valid_set (valid_set (h.close htarget).valid i fun l' hl' => ?_) other fun l' hl' => ?_
  · obtain rfl := Option.some.inj hl'
    exact h.valid other l hl
  · obtain rfl := Option.some.inj hl'
    exact Listener.valid_of_not_listening rfl

end Steps

/-- The calls of a clean run keep the descriptors in custody. -/
theorem Inv.next {s : Listeners} (h : s.Inv) (call : ListenerCall) (hadm : s.Admits call)
    (hclean : s.Clean call) : (s.next call).Inv := by
  cases call with
  | construct i =>
      exact ⟨custody_construct hadm ▸ h.kept, h.noStrayListen,
        valid_set h.valid i fun l hl => Option.some.inj hl ▸ Listener.valid_of_not_listening rfl,
        nofun⟩
  | bind i host port calls =>
      obtain ⟨⟨l, hl⟩, hfree⟩ := hadm
      simp only [Listeners.next, hl]
      exact h.bind hl (hclean.1 l hl) port hfree hclean.2
  | listen i calls =>
      obtain ⟨l, hl⟩ := hadm
      simp only [Listeners.next, hl]
      exact h.listen hl calls
  | close i =>
      obtain ⟨l, hl⟩ := hadm
      simp only [Listeners.next, hl]
      exact h.close hl
  | moveConstruct i other =>
      obtain ⟨hi, l, hl⟩ := hadm
      simp only [Listeners.next, hl]
      exact h.moveConstruct hi hl
  | moveAssign i other =>
      obtain ⟨⟨target, htarget⟩, l, hl⟩ := hadm
      simp only [Listeners.next, htarget, hl]
      by_cases hne : i = other
      · rw [if_pos hne]
        exact ⟨h.kept, h.noStrayListen, h.valid, nofun⟩
      · rw [if_neg hne]
        exact h.moveAssign hne htarget hl
  | destroy i =>
      obtain ⟨l, hl⟩ := hadm
      simp only [Listeners.next, hl]
      exact h.destroy hl

/-! ## Runs that lose a socket -/

/-- Nobody will close a descriptor that is open. -/
def Leaks (s : Listeners) : Prop := ∃ fd r, s.custody.Lost fd r

/-- `socket` returns another number than that of a descriptor that is open. -/
theorem socket_ne {sockets : Ledger Int} {fd : Int} {r : Nat} (h : sockets.Outstanding fd r)
    {calls : SocketCalls} (hfree : 0 ≤ calls.socket → sockets.holder calls.socket = none)
    (l : Listener) (host : String) (port : UInt16) :
    (l.bind host port calls).1.descriptor ≠ some fd := by
  intro hdescriptor
  have hfd : calls.socket = fd := Listener.listenFD_of_descriptor hdescriptor
  by_cases hsocket : 0 ≤ calls.socket
  · have hnone := hfree hsocket
    rw [hfd, h.held] at hnone
    cases hnone
  · rw [Listener.descriptor_of_neg (Int.not_le.mp hsocket)] at hdescriptor
    cases hdescriptor

/-- No call closes a descriptor that is lost. -/
theorem Leaks.next {s : Listeners} (h : s.Leaks) (call : ListenerCall)
    (hadm : s.Admits call) : (s.next call).Leaks := by
  obtain ⟨fd, r, hlost⟩ := h
  refine ⟨fd, r, ?_⟩
  cases call with
  | construct i => exact custody_construct hadm ▸ hlost
  | bind i host port calls =>
      obtain ⟨⟨l, hl⟩, hfree⟩ := hadm
      simp only [Listeners.next, hl]
      rw [custody_bind]
      have hne := socket_ne hlost.outstanding hfree l host port
      exact ⟨Listener.outstanding_bindSockets hlost.outstanding hfree,
        (hlost.overwrite i hne).forgotten⟩
  | listen i calls =>
      obtain ⟨l, hl⟩ := hadm
      simp only [Listeners.next, hl]
      exact custody_listen hl calls ▸ hlost
  | close i =>
      obtain ⟨l, hl⟩ := hadm
      simp only [Listeners.next, hl]
      exact custody_close hl ▸ hlost.drop i
  | moveConstruct i other =>
      obtain ⟨-, l, hl⟩ := hadm
      simp only [Listeners.next, hl]
      exact custody_moveConstruct hl ▸ hlost.give other i
  | moveAssign i other =>
      obtain ⟨⟨target, htarget⟩, l, hl⟩ := hadm
      simp only [Listeners.next, htarget, hl]
      by_cases hne : i = other
      · rw [if_pos hne]
        exact hlost
      · rw [if_neg hne]
        exact custody_moveAssign hne htarget hl ▸ (hlost.drop i).give other i
  | destroy i =>
      obtain ⟨l, hl⟩ := hadm
      simp only [Listeners.next, hl]
      exact custody_destroy hl ▸ hlost.drop i

/-- With a lost descriptor, not every one is closed in the end. -/
theorem Leaks.not_ownsSockets {s : Listeners} (h : s.Leaks) (hdone : ∀ i, s.alive i = none) :
    ¬ s.OwnsSockets := by
  obtain ⟨fd, r, hlost⟩ := h
  intro howns
  have hclosed : s.sockets.releases r = 1 := howns.closedOnce hdone r hlost.outstanding.issued
  have hopen : s.sockets.releases r = 0 := hlost.outstanding.unreleased
  omega

/-- A call that is not clean is a `bind`.  Either its Listener was bound already, and its
descriptor is lost, or it throws and keeps the number of a descriptor that is closed. -/
theorem Inv.leaks {s : Listeners} (h : s.Inv) (call : ListenerCall) (hadm : s.Admits call)
    (hclean : ¬ s.Clean call) (howns : (s.next call).OwnsSockets) : (s.next call).Leaks := by
  cases call with
  | bind i host port calls =>
      obtain ⟨⟨l, hl⟩, hfree⟩ := hadm
      simp only [Listeners.next, hl] at howns ⊢
      by_cases hfd : 0 ≤ l.listenFD
      · have hname : s.custody.name i = some l.listenFD :=
          (name_custody hl).trans (Listener.descriptor_of_nonneg hfd)
        obtain ⟨r, hr⟩ := h.kept.held i l.listenFD hname
        have houtstanding := h.kept.sound.outstanding hr
        obtain ⟨r', hlost⟩ :=
          h.kept.lost_overwrite hname (socket_ne houtstanding hfree l host port)
        refine ⟨l.listenFD, r', ?_⟩
        rw [custody_bind]
        exact ⟨Listener.outstanding_bindSockets hlost.outstanding hfree, hlost.forgotten⟩
      · have hcalls : ¬ (calls.socket < 0 ∨ calls.Bound host) := fun hcalls =>
          hclean ⟨fun l' hl' => Option.some.inj (hl.symm.trans hl') ▸ Int.not_le.mp hfd, hcalls⟩
        obtain ⟨hsocket, hbound⟩ := not_or.mp hcalls
        obtain ⟨e, he⟩ := l.bind_throws port hbound
        have hfailed : (s.bind i l host port calls).failed = some i := by
          rw [Listeners.bind, he]
        have halive : (s.bind i l host port calls).alive i =
            some { l with listenFD := calls.socket } := by
          rw [Listeners.bind, he]
          exact alive_set_self ..
        have hunbound := Listener.unbound_iff.mp (howns.unbound i _ hfailed halive)
        exact absurd hunbound.1 hsocket
  | construct => exact absurd trivial hclean
  | listen => exact absurd trivial hclean
  | close => exact absurd trivial hclean
  | moveConstruct => exact absurd trivial hclean
  | moveAssign => exact absurd trivial hclean
  | destroy => exact absurd trivial hclean

/-- In a clean run the Listeners own their sockets all along, and of the runs that end
with all Listeners destroyed no other one does. -/
theorem ownsSockets_iff {calls : List ListenerCall} (hadm : AlwaysStep next Admits {} calls) :
    (AlwaysStep next Clean {} calls → Always next OwnsSockets {} calls) ∧
    ((∀ i, (calls.foldl next {}).alive i = none) →
      (Always next OwnsSockets {} calls ↔ AlwaysStep next Clean {} calls)) := by
  have hinv : ∀ s call, Inv s → Admits s call → Clean s call → Inv (next s call) :=
    fun s call h ha hclean => h.next call ha hclean
  have hclean : AlwaysStep next Clean {} calls → Always next OwnsSockets {} calls := fun hok =>
    (Machine.always_of_ok hinv inv_empty hadm hok).imp fun s h => h.ownsSockets
  refine ⟨hclean, fun hdone => ⟨fun howns => ?_, hclean⟩⟩
  refine Machine.ok_of_always hinv (fun s call h ha hbad => h.leaks call ha hbad)
    (fun s call h ha => Leaks.next h call ha) inv_empty hadm ?_ howns
  rintro ⟨hleaks, hend⟩
  exact hleaks.not_ownsSockets hdone hend

/-- A Listener is bound, moved into another one, and both are destroyed. -/
theorem ownsSockets_moved : Always next OwnsSockets {}
    [.construct 0, .bind 0 "0.0.0.0" 8080 {}, .listen 0 {}, .moveConstruct 1 0, .destroy 0,
      .destroy 1] := by
  refine (ownsSockets_iff ?_).1 ⟨trivial, ⟨fun l hl => ?_, .inr ?_⟩, trivial, trivial, trivial,
    trivial, trivial⟩
  · exact ⟨rfl, ⟨⟨_, rfl⟩, fun _ => rfl⟩, ⟨_, rfl⟩, ⟨rfl, _, rfl⟩, ⟨_, rfl⟩, ⟨_, rfl⟩, trivial⟩
  · obtain rfl := Option.some.inj ((alive_set_self {} 0 (some {})).symm.trans hl)
    decide
  · exact ⟨by decide, rfl, rfl, .inl rfl, rfl⟩

/-- The port is taken.  The Listener keeps the number of a closed descriptor, and its
destructor closes that number once more. -/
theorem ownsSockets_fails :
    ¬ ∀ calls : List ListenerCall, AlwaysStep next Admits {} calls →
      Always next OwnsSockets {} calls := by
  intro h
  have hrun := h [.construct 0, .bind 0 "0.0.0.0" 8080 { bind := false }, .destroy 0]
    ⟨rfl, ⟨⟨_, rfl⟩, fun _ => rfl⟩, ⟨_, rfl⟩, trivial⟩
  exact absurd hrun.last.noStrayClose (by decide)

end Listeners

end Fion.Network
