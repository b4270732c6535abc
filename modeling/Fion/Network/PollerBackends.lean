import Fion.Machine.ForEach
import Fion.Machine.Reach
import Fion.Network.Poller

/-!
# The two back ends of the poller

`Poller` is written twice.  On epoll a call is one update of the interest list.  On
kqueue the filters of a descriptor are registered one by one, and a call is a list
of changes that the kernel applies in order until one fails: deleting an absent filter
does.

Both are to keep the same registry, a set of interests for each descriptor
(`requested`).  The epoll implementation does (`interests_next`).  The kqueue
implementation deletes both filters before it adds any, and stops short unless both are
there.  So `modify_fd` and `removeFD` go wrong exactly in the states `Translates` leaves
out, and the two agree all along a run exactly when no call is made in such a state
(`interests_agree_iff`).
-/

namespace Fion.Network

open Cpp (Exn)
open Machine (Always AlwaysStep forEach)

/-! ## Masks -/

/-- A mask of `PollerEvent`s. -/
structure EventMask where
  read : Bool := false
  write : Bool := false
  error : Bool := false
  hangup : Bool := false
  edgeTriggered : Bool := false

-- the values of `PollerEvent` on the kqueue platforms
namespace KqueueEvent

def READ : UInt32 := 0x0001

def WRITE : UInt32 := 0x0002

def ERROR : UInt32 := 0x0004

def HANGUP : UInt32 := 0x0008

def EDGE_TRIGGERED : UInt32 := 0x0010

end KqueueEvent

/-- The interests in a descriptor. -/
structure Interests where
  read : Bool := false
  write : Bool := false
deriving DecidableEq

namespace EventMask

/-- The flag or nothing. -/
def flag (set : Bool) (value : UInt32) : UInt32 := if set then value else 0

/-- The mask as the epoll implementation gets it. -/
def epoll (m : EventMask) : UInt32 :=
  flag m.read PollerEvent.READ ||| flag m.write PollerEvent.WRITE |||
    flag m.error PollerEvent.ERROR ||| flag m.hangup PollerEvent.HANGUP |||
    flag m.edgeTriggered PollerEvent.EDGE_TRIGGERED

/-- The mask as the kqueue implementation gets it. -/
def kqueue (m : EventMask) : UInt32 :=
  flag m.read KqueueEvent.READ ||| flag m.write KqueueEvent.WRITE |||
    flag m.error KqueueEvent.ERROR ||| flag m.hangup KqueueEvent.HANGUP |||
    flag m.edgeTriggered KqueueEvent.EDGE_TRIGGERED

/-- What the mask asks for. -/
def interests (m : EventMask) : Interests := { read := m.read, write := m.write }

theorem epoll_flags (m : EventMask) :
    (m.epoll &&& PollerEvent.READ != 0) = m.read ∧
      (m.epoll &&& PollerEvent.WRITE != 0) = m.write := by
  rcases m with ⟨read, write, error, hangup, edgeTriggered⟩
  cases read <;> cases write <;> cases error <;> cases hangup <;> cases edgeTriggered <;>
    exact ⟨rfl, rfl⟩

theorem kqueue_flags (m : EventMask) :
    (m.kqueue &&& KqueueEvent.READ != 0) = m.read ∧
      (m.kqueue &&& KqueueEvent.WRITE != 0) = m.write := by
  rcases m with ⟨read, write, error, hangup, edgeTriggered⟩
  cases read <;> cases write <;> cases error <;> cases hangup <;> cases edgeTriggered <;>
    exact ⟨rfl, rfl⟩

end EventMask

/-! ## kqueue -/

/-- `EVFILT_READ` and `EVFILT_WRITE`. -/
inductive Filter where
  | read
  | write

/-- `EV_ADD | EV_ENABLE` and `EV_DELETE`. -/
inductive Action where
  | add
  | delete

/-- `struct kevent`, as `EV_SET` fills it. -/
structure Change where
  fd : Fd
  filter : Filter
  action : Action

namespace Interests

/-- The filter is there. -/
def has (i : Interests) : Filter → Bool
  | .read => i.read
  | .write => i.write

/-- Add or delete a filter. -/
def set (i : Interests) (present : Bool) : Filter → Interests
  | .read => { i with read := present }
  | .write => { i with write := present }

/-- A change to the filters of one descriptor. -/
def change (filter : Filter) (action : Action) (i : Interests) : Except Errno Unit × Interests :=
  match action with
  | .add => (.ok (), i.set true filter)
  | .delete => if i.has filter then (.ok (), i.set false filter) else (.error .ENOENT, i)

/-- Changes to the filters of one descriptor. -/
def apply (kev : List Change) (i : Interests) : Machine.Looped Errno Interests Change :=
  forEach (fun c => change c.filter c.action) kev i

end Interests

/-- The kqueue implementation of `Poller`: the filters of its kqueue instance. -/
structure KqueuePoller where
  filters : Fd → Interests := fun _ => {}

namespace KqueuePoller

/-- The poller with these filters for a descriptor. -/
def put (k : KqueuePoller) (fd : Fd) (i : Interests) : KqueuePoller :=
  { filters := Function.update k.filters fd i }

/-- The kernel applies one change. -/
def change (c : Change) (k : KqueuePoller) : Except Errno Unit × KqueuePoller :=
  let changed := (k.filters c.fd).change c.filter c.action
  (changed.1, k.put c.fd changed.2)

/-- `kevent` with an empty event list: the changes are applied until one fails. -/
def kevent (k : KqueuePoller) (kev : List Change) : Except Errno Unit × KqueuePoller :=
  let applied := forEach change kev k
  (applied.result, applied.state)

/-- The changes that `addFD` and `modify_fd` make for a mask. -/
def additions (fd : Fd) (events : UInt32) : List Change :=
  (if events &&& KqueueEvent.READ != 0 then [⟨fd, .read, .add⟩] else []) ++
    (if events &&& KqueueEvent.WRITE != 0 then [⟨fd, .write, .add⟩] else [])

/-- `addFD`. -/
def addFD (k : KqueuePoller) (fd : Fd) (events : UInt32) : Except Exn Unit × KqueuePoller :=
  let kev := additions fd events
  if kev.length > 0 then
    match k.kevent kev with
    | (.error e, k') => (.error (.runtimeError ("Failed to add fd to kqueue: " ++ e.strerror)), k')
    | (.ok _, k') => (.ok (), k')
  else (.ok (), k)

/-- `modify_fd`. -/
def modifyFD (k : KqueuePoller) (fd : Fd) (events : UInt32) : KqueuePoller :=
  (k.kevent (⟨fd, .read, .delete⟩ :: ⟨fd, .write, .delete⟩ :: additions fd events)).2

/-- `removeFD`. -/
def removeFD (k : KqueuePoller) (fd : Fd) : KqueuePoller :=
  (k.kevent [⟨fd, .read, .delete⟩, ⟨fd, .write, .delete⟩]).2

/-! ### What the calls do to the filters -/

theorem put_filters (k : KqueuePoller) (fd : Fd) : k.put fd (k.filters fd) = k := by
  rw [put, Function.update_eq_self]

/-- Changes to one descriptor leave the others alone. -/
theorem kevent_eq_put (k : KqueuePoller) {fd : Fd} {kev : List Change}
    (hkev : ∀ c ∈ kev, c.fd = fd) :
    k.kevent kev =
      (((k.filters fd).apply kev).result, k.put fd ((k.filters fd).apply kev).state) := by
  have hpart : ∀ c ∈ kev, ∀ i, change c (k.put fd i) =
      ((i.change c.filter c.action).1, k.put fd (i.change c.filter c.action).2) := by
    intro c hc i
    obtain rfl := hkev c hc
    simp only [change, put, Function.update_self, Function.update_idem]
  have hloop := Machine.forEach_embed (k.put fd) kev hpart (k.filters fd)
  rw [put_filters] at hloop
  rw [kevent, hloop]
  rfl

theorem fd_additions (fd : Fd) (events : UInt32) : ∀ c ∈ additions fd events, c.fd = fd := by
  intro c hc
  rw [additions, List.mem_append] at hc
  rcases hc with hc | hc
  · split at hc
    · rw [List.mem_singleton.mp hc]
    · cases hc
  · split at hc
    · rw [List.mem_singleton.mp hc]
    · cases hc

/-- Adding does not fail. -/
theorem apply_additions (fd : Fd) (m : EventMask) (old : Interests) :
    old.apply (additions fd m.kqueue) =
      ⟨.ok (), { read := old.read || m.read, write := old.write || m.write },
        additions fd m.kqueue⟩ := by
  obtain ⟨hread, hwrite⟩ := m.kqueue_flags
  rw [additions, hread, hwrite]
  rcases old with ⟨read, write⟩
  rcases m with ⟨read', write', error, hangup, edgeTriggered⟩
  cases read <;> cases write <;> cases read' <;> cases write' <;> rfl

/-- Deleting stops at the first filter that is absent. -/
theorem apply_deletions (fd : Fd) (old : Interests) :
    (old.apply [⟨fd, .read, .delete⟩, ⟨fd, .write, .delete⟩]).state =
      if old.read then {} else old := by
  rcases old with ⟨read, write⟩
  cases read <;> cases write <;> rfl

/-- So the filters are replaced only if both were there. -/
theorem apply_replacement (fd : Fd) (m : EventMask) (old : Interests) :
    (old.apply (⟨fd, .read, .delete⟩ :: ⟨fd, .write, .delete⟩ ::
      additions fd m.kqueue)).state =
        if old.read then if old.write then m.interests else {} else old := by
  obtain ⟨hread, hwrite⟩ := m.kqueue_flags
  rw [additions, hread, hwrite]
  rcases old with ⟨read, write⟩
  rcases m with ⟨read', write', error, hangup, edgeTriggered⟩
  cases read <;> cases write <;> cases read' <;> cases write' <;> rfl

theorem addFD_eq (k : KqueuePoller) (fd : Fd) (m : EventMask) :
    k.addFD fd m.kqueue = (.ok (), k.put fd
      { read := (k.filters fd).read || m.read, write := (k.filters fd).write || m.write }) := by
  have happly := apply_additions fd m (k.filters fd)
  have hkevent := k.kevent_eq_put (fd_additions fd m.kqueue)
  rw [happly] at hkevent
  by_cases hempty : additions fd m.kqueue = []
  · rw [hempty] at happly
    have hold : k.filters fd =
        { read := (k.filters fd).read || m.read, write := (k.filters fd).write || m.write } :=
      congrArg Machine.Looped.state happly
    rw [← hold, put_filters]
    simp [addFD, hempty]
  · simp [addFD, List.length_pos_iff.mpr hempty, hkevent]

theorem modifyFD_eq (k : KqueuePoller) (fd : Fd) (m : EventMask) :
    k.modifyFD fd m.kqueue = k.put fd
      (if (k.filters fd).read then if (k.filters fd).write then m.interests else {}
        else k.filters fd) := by
  have hkev : ∀ c ∈ (⟨fd, .read, .delete⟩ : Change) :: ⟨fd, .write, .delete⟩ ::
      additions fd m.kqueue, c.fd = fd := by
    intro c hc
    rcases List.mem_cons.mp hc with rfl | hc
    · rfl
    rcases List.mem_cons.mp hc with rfl | hc
    · rfl
    · exact fd_additions fd m.kqueue c hc
  rw [modifyFD, k.kevent_eq_put hkev]
  exact congrArg (k.put fd) (apply_replacement fd m (k.filters fd))

theorem removeFD_eq (k : KqueuePoller) (fd : Fd) :
    k.removeFD fd = k.put fd (if (k.filters fd).read then {} else k.filters fd) := by
  have hkev : ∀ c ∈ [(⟨fd, .read, .delete⟩ : Change), ⟨fd, .write, .delete⟩], c.fd = fd := by
    simp
  rw [removeFD, k.kevent_eq_put hkev]
  exact congrArg (k.put fd) (apply_deletions fd (k.filters fd))

end KqueuePoller

/-! ## epoll -/

namespace Poller

/-- The interests that the mask of a registered descriptor asks for. -/
def interests (p : Poller) (fd : Fd) : Interests :=
  match p.interest fd with
  | some events =>
      { read := events &&& PollerEvent.READ != 0, write := events &&& PollerEvent.WRITE != 0 }
  | none => {}

theorem interests_register (p : Poller) (fd : Fd) (m : EventMask) :
    (p.register fd m.epoll).interests = Function.update p.interests fd m.interests := by
  funext fd'
  by_cases hfd : fd' = fd
  · subst hfd
    obtain ⟨hread, hwrite⟩ := m.epoll_flags
    simp only [interests, register, Function.update_self, hread, hwrite]
    rfl
  · simp only [interests, register, Function.update_of_ne hfd]

theorem interests_unregister (p : Poller) (fd : Fd) :
    (p.unregister fd).interests = Function.update p.interests fd {} := by
  funext fd'
  by_cases hfd : fd' = fd
  · subst hfd
    simp only [interests, unregister, Function.update_self]
  · simp only [interests, unregister, Function.update_of_ne hfd]

theorem interests_of_not_registered {p : Poller} {fd : Fd} (h : ¬ p.Registered fd) :
    p.interests fd = {} := by
  rw [Registered, Bool.not_eq_true, Option.isSome_eq_false_iff, Option.isNone_iff_eq_none] at h
  rw [interests, h]

end Poller

/-! ## Runs -/

/-- A call of a member function that registers interests. -/
inductive PollerCall where
  | addFD (fd : Fd) (events : EventMask)
  | modifyFD (fd : Fd) (events : EventMask)
  | removeFD (fd : Fd)

/-- What the call asks of a registry of interests. -/
def requested (registry : Fd → Interests) : PollerCall → Fd → Interests
  | .addFD fd events => Function.update registry fd events.interests
  | .modifyFD fd events => Function.update registry fd events.interests
  | .removeFD fd => Function.update registry fd {}

/-- The two implementations, under the same calls. -/
structure Backends where
  epoll : Poller := {}
  kqueue : KqueuePoller := {}

namespace Backends

/-- One call.  On epoll, a call that throws changes nothing. -/
def next (s : Backends) : PollerCall → Backends
  | .addFD fd events =>
      { epoll := (s.epoll.addFD fd events.epoll).toOption.getD s.epoll
        kqueue := (s.kqueue.addFD fd events.kqueue).2 }
  | .modifyFD fd events =>
      { epoll := (s.epoll.modifyFD fd events.epoll).toOption.getD s.epoll
        kqueue := s.kqueue.modifyFD fd events.kqueue }
  | .removeFD fd =>
      { epoll := (s.epoll.removeFD fd).toOption.getD s.epoll
        kqueue := s.kqueue.removeFD fd }

/-- The calls that are valid on epoll. -/
def Admits (s : Backends) : PollerCall → Prop
  | .addFD fd events => ¬ s.epoll.Registered fd ∧ (events.read = true ∨ events.write = true)
  | .modifyFD fd _ => s.epoll.Registered fd
  | .removeFD fd => s.epoll.Registered fd

/-- Every descriptor has the same interests on both. -/
def Agree (s : Backends) : Prop := ∀ fd, s.kqueue.filters fd = s.epoll.interests fd

/-- The changes of the kqueue implementation add up to the update on epoll: `modify_fd`
finds both filters or has nothing to do but to drop `READ`, and `removeFD` does not find
`WRITE` alone. -/
def Translates (s : Backends) : PollerCall → Prop
  | .addFD _ _ => True
  | .modifyFD fd events =>
      ((s.epoll.interests fd).read = true ∧ (s.epoll.interests fd).write = true) ∨
        events.interests = { s.epoll.interests fd with read := false }
  | .removeFD fd => (s.epoll.interests fd).write = true → (s.epoll.interests fd).read = true

/-- The epoll implementation keeps the registry. -/
theorem interests_next {s : Backends} {call : PollerCall} (h : s.Admits call) :
    (s.next call).epoll.interests = requested s.epoll.interests call := by
  cases call with
  | addFD fd events =>
      rw [next, Poller.addFD_of_not_registered h.1]
      exact Poller.interests_register s.epoll fd events
  | modifyFD fd events =>
      rw [next, Poller.modifyFD_of_registered h]
      exact Poller.interests_register s.epoll fd events
  | removeFD fd =>
      rw [next, Poller.removeFD_of_registered h]
      exact Poller.interests_unregister s.epoll fd

theorem forall_update_iff {f g : Fd → Interests} (hfg : f = g) (fd : Fd) (a b : Interests) :
    (∀ fd', Function.update f fd a fd' = Function.update g fd b fd') ↔ a = b := by
  rw [hfg, ← funext_iff]
  exact (Function.update_injective g fd).eq_iff

/-- A call keeps the two in agreement exactly when its changes add up. -/
theorem agree_next_iff {s : Backends} {call : PollerCall} (hadm : s.Admits call)
    (h : s.Agree) : (s.next call).Agree ↔ s.Translates call := by
  have hfilters : s.kqueue.filters = s.epoll.interests := funext h
  rw [Agree, interests_next hadm]
  cases call with
  | addFD fd events =>
      refine iff_of_true ?_ trivial
      have hempty : s.kqueue.filters fd = {} :=
        (h fd).trans (Poller.interests_of_not_registered hadm.1)
      rw [next, KqueuePoller.addFD_eq, hempty]
      refine (forall_update_iff hfilters fd _ _).mpr ?_
      rw [EventMask.interests, Bool.false_or, Bool.false_or]
  | modifyFD fd events =>
      rw [next, KqueuePoller.modifyFD_eq]
      refine (forall_update_iff hfilters fd _ _).trans ?_
      rw [hfilters, Translates]
      generalize s.epoll.interests fd = old
      generalize events.interests = new
      rcases old with ⟨read, write⟩
      rcases new with ⟨read', write'⟩
      cases read <;> cases write <;> cases read' <;> cases write' <;> decide
  | removeFD fd =>
      rw [next, KqueuePoller.removeFD_eq]
      refine (forall_update_iff hfilters fd _ _).trans ?_
      rw [hfilters, Translates]
      generalize s.epoll.interests fd = old
      rcases old with ⟨read, write⟩
      cases read <;> cases write <;> decide

/-- Along a run whose changes add up, both keep the registry that was asked for. -/
theorem registry_run {s : Backends} (h : s.Agree) {calls : List PollerCall}
    (hadm : AlwaysStep next Admits s calls) (htranslates : AlwaysStep next Translates s calls) :
    (calls.foldl next s).epoll.interests = calls.foldl requested s.epoll.interests ∧
      (calls.foldl next s).kqueue.filters = calls.foldl requested s.epoll.interests := by
  induction calls generalizing s with
  | nil => exact ⟨rfl, funext h⟩
  | cons call calls ih =>
      have hagree : (s.next call).Agree := (agree_next_iff hadm.1 h).mpr htranslates.1
      have hrest := ih hagree hadm.2 htranslates.2
      rw [interests_next hadm.1] at hrest
      exact hrest

/-- The two agree all along a run of valid calls exactly when the changes of each call
add up. -/
theorem interests_agree_iff {calls : List PollerCall} (hadm : AlwaysStep next Admits {} calls) :
    Always next Agree {} calls ↔ AlwaysStep next Translates {} calls :=
  Machine.always_iff (fun _ _ (h : True) _ => h) (fun _ _ _ ha h => agree_next_iff ha h)
    trivial (fun _ => rfl) hadm

/-- A descriptor is added, loses `WRITE` interest, and is removed. -/
theorem agree_readWrite : Always next Agree {}
    [.addFD 5 { read := true, write := true }, .modifyFD 5 { read := true }, .removeFD 5] := by
  refine (interests_agree_iff ?_).mpr ?_
  · exact ⟨⟨by decide, .inl rfl⟩, rfl, rfl, trivial⟩
  · exact ⟨trivial, .inl ⟨rfl, rfl⟩, fun _ => rfl, trivial⟩

/-- A descriptor that was added for reading is to be written to: kqueue deletes `READ`,
fails to delete `WRITE`, and adds nothing. -/
theorem agree_fails :
    ¬ ∀ calls : List PollerCall, AlwaysStep next Admits {} calls → Always next Agree {} calls := by
  intro h
  have hrun := h [.addFD 5 { read := true }, .modifyFD 5 { write := true }]
    ⟨⟨by decide, .inl rfl⟩, rfl, trivial⟩
  exact absurd (hrun.last 5) (by decide)

end Backends

end Fion.Network
