import Fion.Machine.Custody
import Fion.Machine.Reach
import Fion.Network.Client

/-!
# Moving clients

A `Client` can be moved, though a pool never does it.  The move operations hand over the
descriptor and the state.  The buffers stay where they are, since a mutex cannot be moved:
a client that is constructed from another one has empty buffers, and one that is assigned
keeps its own.

The descriptors are in good hands, however clients are constructed, used, moved and
destroyed: each is closed once and no other is (`clients_run`).  The data is not.  A move
goes unnoticed exactly when the new owner's buffers hold what the old one's did (`Clean`).
-/

namespace Fion.Network

open Cpp (Bytes ascii)
open Machine (Ledger Custody Always AlwaysStep)

namespace Client

/-! ## The operations -/

/-- The move constructor. -/
def moveConstruct (other : Client) : Client := { fd := other.fd, state := other.state }

/-- The move assignment to another client. -/
def moveAssign (target other : Client) : Client :=
  { target with fd := other.fd, state := other.state }

/-- What both leave behind. -/
def movedFrom (other : Client) : Client := { other with fd := -1 }

/-- What the destructor does to the open descriptors, and the move assignment to those of
its target. -/
def closeDescriptor (c : Client) (descriptors : Ledger Fd) : Ledger Fd :=
  if 0 ≤ c.fd then descriptors.release c.fd else descriptors

/-- A call that neither moves the client nor destroys it. -/
inductive Use where
  | readRequest (recv : RecvResult)
  | prepareResponse (response : Http.Response)
  | writeResponse (send : SendResult)
  | setState (state : ClientState)
  | clearRequestBuffer
  | clearResponseBuffer

/-- The call is made. -/
def use (c : Client) : Use → Client
  | .readRequest recv => c.readRequest recv
  | .prepareResponse response =>
      match c.prepareResponse response with
      | .ok c' => c'
      | .error _ => c
  | .writeResponse send => (c.writeResponse send).1
  | .setState state => c.setState state
  | .clearRequestBuffer => { c with requestBuffer := [] }
  | .clearResponseBuffer => { c with responseBuffer := [] }

/-- The descriptor that the destructor would close. -/
def descriptor (c : Client) : Option Fd := if 0 ≤ c.fd then some c.fd else none

theorem descriptor_of_nonneg {c : Client} (h : 0 ≤ c.fd) : c.descriptor = some c.fd := if_pos h

theorem descriptor_of_neg {c : Client} (h : ¬ 0 ≤ c.fd) : c.descriptor = none := if_neg h

theorem descriptor_movedFrom (c : Client) : c.movedFrom.descriptor = none := rfl

theorem use_fd (c : Client) (u : Use) : (c.use u).fd = c.fd := by
  cases u with
  | readRequest recv => cases recv <;> rfl
  | prepareResponse response =>
      simp only [use]
      cases hprepared : c.prepareResponse response with
      | error e => rfl
      | ok c' =>
          obtain ⟨raw, -, rfl⟩ := prepareResponse_eq_ok_iff.mp hprepared
          rfl
  | writeResponse send =>
      simp only [use, writeResponse]
      split_ifs <;> rfl
  | setState | clearRequestBuffer | clearResponseBuffer => rfl

/-- A client is the unmoved one when it has the same descriptor, state and buffers. -/
theorem moveConstruct_eq_iff (c : Client) :
    c.moveConstruct = c ↔ c.requestBuffer = [] ∧ c.responseBuffer = [] := by
  obtain ⟨fd, requestBuffer, responseBuffer, state⟩ := c
  simp [moveConstruct, eq_comm]

theorem moveAssign_eq_iff (target c : Client) :
    target.moveAssign c = c ↔
      target.requestBuffer = c.requestBuffer ∧ target.responseBuffer = c.responseBuffer := by
  obtain ⟨fd, requestBuffer, responseBuffer, state⟩ := c
  simp [moveAssign]

end Client

/-- The clients of a process, under numbers of their own. -/
structure Clients where
  /-- Those between their construction and their destruction. -/
  alive : Nat → Option Client := fun _ => none
  descriptors : Ledger Fd := {}
  /-- The client there would be for a descriptor if none had been moved. -/
  unmoved : Fd → Client := fun fd => { fd := fd }

/-- A call of a member function. -/
inductive ClientCall where
  /-- The constructor, with a descriptor that `accept` has returned. -/
  | construct (i : Nat) (fd : Fd)
  | use (i : Nat) (u : Client.Use)
  | moveConstruct (i other : Nat)
  | moveAssign (i other : Nat)
  | destroy (i : Nat)

namespace Clients

/-- The client `i` becomes `c`. -/
def set (s : Clients) (i : Nat) (c : Option Client) : Clients :=
  { s with alive := Function.update s.alive i c }

@[simp] theorem alive_set_self (s : Clients) (i : Nat) (c : Option Client) :
    (s.set i c).alive i = c := Function.update_self ..

theorem alive_set_of_ne {s : Clients} {i j : Nat} (h : j ≠ i) (c : Option Client) :
    (s.set i c).alive j = s.alive j := Function.update_of_ne h ..

/-- The descriptor of a client is closed. -/
def close (s : Clients) (c : Client) : Clients :=
  { s with descriptors := c.closeDescriptor s.descriptors }

/-- One call. -/
def next (s : Clients) : ClientCall → Clients
  | .construct i fd =>
      { s.set i (some { fd := fd }) with
        descriptors := s.descriptors.acquire fd
        unmoved := Function.update s.unmoved fd { fd := fd } }
  | .use i u =>
      match s.alive i with
      | some c =>
          { s.set i (some (c.use u)) with
            unmoved := Function.update s.unmoved c.fd ((s.unmoved c.fd).use u) }
      | none => s
  | .moveConstruct i other =>
      match s.alive other with
      | some c => (s.set i (some c.moveConstruct)).set other (some c.movedFrom)
      | none => s
  | .moveAssign i other =>
      match s.alive i, s.alive other with
      | some target, some c =>
          if i = other then s
          else ((s.close target).set i (some (target.moveAssign c))).set other (some c.movedFrom)
      | _, _ => s
  | .destroy i =>
      match s.alive i with
      | some c => (s.close c).set i none
      | none => s

/-- The calls that a program can make: on clients that are there, with descriptors that are
not in use, and with a descriptor to use. -/
def Admits (s : Clients) : ClientCall → Prop
  | .construct i fd => s.alive i = none ∧ 0 ≤ fd ∧ s.descriptors.holder fd = none
  | .use i _ => ∃ c, s.alive i = some c ∧ 0 ≤ c.fd
  | .moveConstruct i other => s.alive i = none ∧ ∃ c, s.alive other = some c
  | .moveAssign i other => (∃ c, s.alive i = some c) ∧ ∃ c, s.alive other = some c
  | .destroy i => ∃ c, s.alive i = some c

/-- A client with a descriptor is as if none had been moved. -/
def Faithful (s : Clients) : Prop :=
  ∀ i c, s.alive i = some c → 0 ≤ c.fd → c = s.unmoved c.fd

/-- A client with a descriptor is moved only where its buffers are already. -/
def Clean (s : Clients) : ClientCall → Prop
  | .moveConstruct _ other => ∀ c, s.alive other = some c → 0 ≤ c.fd →
      c.requestBuffer = [] ∧ c.responseBuffer = []
  | .moveAssign i other => i ≠ other → ∀ target c, s.alive i = some target →
      s.alive other = some c → 0 ≤ c.fd →
      target.requestBuffer = c.requestBuffer ∧ target.responseBuffer = c.responseBuffer
  | .construct .. | .use .. | .destroy _ => True

/-! ## Custody -/

/-- The descriptors that the clients would close, and the open ones. -/
def custody (s : Clients) : Custody Nat Fd where
  name := fun i => (s.alive i).bind Client.descriptor
  ledger := s.descriptors

section Custody

variable {s : Clients} {i : Nat} {c : Client}

theorem name_custody (h : s.alive i = some c) : s.custody.name i = c.descriptor := by
  show (s.alive i).bind Client.descriptor = c.descriptor
  rw [h, Option.bind_some]

theorem name_custody_of_none (h : s.alive i = none) : s.custody.name i = none := by
  show (s.alive i).bind Client.descriptor = none
  rw [h, Option.bind_none]

theorem custody_set (s : Clients) (i : Nat) (c : Option Client) :
    (s.set i c).custody = s.custody.overwrite i (c.bind Client.descriptor) := by
  rw [custody, custody, Custody.overwrite]
  congr 1
  funext j
  exact Function.apply_update (fun _ (o : Option Client) => o.bind Client.descriptor) s.alive i c j

/-- Closing the descriptor of a client, which is then overwritten, drops it. -/
theorem custody_close (h : s.alive i = some c) (n : Option Fd) :
    (s.close c).custody.overwrite i n = (s.custody.drop i).overwrite i n := by
  have hname := name_custody h
  by_cases hfd : 0 ≤ c.fd
  · rw [Client.descriptor_of_nonneg hfd] at hname
    rw [Custody.drop_of_some hname, custody, close, Client.closeDescriptor, if_pos hfd]
    simp only [Custody.overwrite, Function.update_idem]
    rfl
  · rw [Client.descriptor_of_neg hfd] at hname
    rw [Custody.drop_of_none hname, custody, close, Client.closeDescriptor, if_neg hfd]
    rfl

theorem custody_destroy (h : s.alive i = some c) :
    ((s.close c).set i none).custody = s.custody.drop i := by
  rw [custody_set, Option.bind_none, custody_close h, ← Custody.name_drop_self s.custody i,
    Custody.overwrite_name]

/-- The move constructor hands the descriptor over. -/
theorem custody_moveConstruct {other : Nat} (h : s.alive other = some c) :
    ((s.set i (some c.moveConstruct)).set other (some c.movedFrom)).custody =
      s.custody.give other i := by
  rw [custody_set, custody_set, Option.bind_some, Option.bind_some, Client.descriptor_movedFrom,
    Custody.give, name_custody h]
  rfl

/-- The move assignment drops the descriptor of its target first. -/
theorem custody_moveAssign {other : Nat} {target : Client} (hne : i ≠ other)
    (htarget : s.alive i = some target) (h : s.alive other = some c) :
    (((s.close target).set i (some (target.moveAssign c))).set other
      (some c.movedFrom)).custody = (s.custody.drop i).give other i := by
  rw [custody_set, custody_set, Option.bind_some, Option.bind_some, Client.descriptor_movedFrom,
    custody_close htarget, Custody.give, Custody.name_drop_of_ne hne.symm, name_custody h]
  rfl

end Custody

/-- The descriptors are in custody. -/
def InCustody (s : Clients) : Prop := s.custody.Kept

theorem inCustody_empty : InCustody {} := Custody.kept_empty

/-- Every call keeps them so. -/
theorem InCustody.step {s : Clients} (h : s.InCustody) {call : ClientCall} (hadm : s.Admits call) :
    (s.next call).InCustody := by
  cases call with
  | construct i fd =>
      obtain ⟨hi, hfd, hfree⟩ := hadm
      have htake : (s.next (.construct i fd)).custody = s.custody.take i fd := by
        have hset := custody_set s i (some { fd := fd })
        rw [Option.bind_some, Client.descriptor_of_nonneg hfd] at hset
        exact congrArg (fun c : Custody Nat Fd => { c with ledger := s.descriptors.acquire fd })
          hset
      rw [InCustody, htake]
      exact Custody.Kept.take h (name_custody_of_none hi) hfree
  | use i u =>
      obtain ⟨c, hc, -⟩ := hadm
      have hsame : (s.next (.use i u)).custody = s.custody := by
        have hset := custody_set s i (some (c.use u))
        rw [Option.bind_some, Client.descriptor, Client.use_fd, ← Client.descriptor,
          ← name_custody hc, Custody.overwrite_name] at hset
        simp only [next, hc]
        exact hset
      rw [InCustody, hsame]
      exact h
  | moveConstruct i other =>
      obtain ⟨hi, c, hc⟩ := hadm
      simp only [next, hc]
      rw [InCustody, custody_moveConstruct hc]
      exact Custody.Kept.give h other (name_custody_of_none hi)
  | moveAssign i other =>
      obtain ⟨⟨target, htarget⟩, c, hc⟩ := hadm
      simp only [next, htarget, hc]
      by_cases hne : i = other
      · rw [if_pos hne]
        exact h
      · rw [if_neg hne, InCustody, custody_moveAssign hne htarget hc]
        exact (Custody.Kept.drop h i).give other (Custody.name_drop_self s.custody i)
  | destroy i =>
      obtain ⟨c, hc⟩ := hadm
      simp only [next, hc]
      rw [InCustody, custody_destroy hc]
      exact Custody.Kept.drop h i

/-! ## Moves that go unnoticed -/

/-- Two clients with a descriptor have different ones. -/
theorem InCustody.eq_of_fd {s : Clients} (h : s.InCustody) {i j : Nat} {c c' : Client}
    (hi : s.alive i = some c) (hj : s.alive j = some c') (hfd : 0 ≤ c.fd) (heq : c'.fd = c.fd) :
    i = j :=
  h.apart i j c.fd ((name_custody hi).trans (Client.descriptor_of_nonneg hfd))
    ((name_custody hj).trans (by rw [← heq]; exact Client.descriptor_of_nonneg (heq ▸ hfd)))

/-- When a descriptor is handed over, the new owner has to be like the old one. -/
theorem faithful_handed_iff {s s' : Clients} (h : s.Faithful) {i other : Nat} {c owner : Client}
    (hne : i ≠ other) (hc : s.alive other = some c) (howner : owner.fd = c.fd)
    (halive : s'.alive =
      Function.update (Function.update s.alive i (some owner)) other (some c.movedFrom))
    (hunmoved : s'.unmoved = s.unmoved) : s'.Faithful ↔ (0 ≤ c.fd → owner = c) := by
  constructor
  · intro hfaithful hfd
    have hi : s'.alive i = some owner := by
      rw [halive, Function.update_of_ne hne, Function.update_self]
    rw [hfaithful i owner hi (howner ▸ hfd), howner, hunmoved]
    exact (h other c hc hfd).symm
  · intro hsame j c' hj hfd
    rw [hunmoved]
    rw [halive] at hj
    by_cases hother : j = other
    · subst hother
      rw [Function.update_self] at hj
      obtain rfl := Option.some.inj hj
      exact absurd hfd (show ¬ (0 : Int) ≤ -1 by decide)
    · rw [Function.update_of_ne hother] at hj
      by_cases hji : j = i
      · subst hji
        rw [Function.update_self] at hj
        obtain rfl := Option.some.inj hj
        have hfd' : 0 ≤ c.fd := howner ▸ hfd
        rw [hsame hfd']
        exact h other c hc hfd'
      · rw [Function.update_of_ne hji] at hj
        exact h j c' hj hfd

/-- A call leaves the clients as if none had been moved exactly when it is clean. -/
theorem faithful_next_iff {s : Clients} (hs : s.InCustody) {call : ClientCall}
    (hadm : s.Admits call) (h : s.Faithful) : (s.next call).Faithful ↔ s.Clean call := by
  cases call with
  | construct i fd =>
      obtain ⟨-, -, hfree⟩ := hadm
      refine iff_of_true (fun j c hj hfd => ?_) trivial
      by_cases hji : j = i
      · subst hji
        obtain rfl := Option.some.inj ((alive_set_self s j (some { fd := fd })).symm.trans hj)
        show ({ fd := fd } : Client) = Function.update s.unmoved fd { fd := fd } fd
        rw [Function.update_self]
      · have hj' : s.alive j = some c := (alive_set_of_ne hji _).symm.trans hj
        have hne : c.fd ≠ fd := fun heq => by
          obtain ⟨r, hr⟩ := hs.held j c.fd
            ((name_custody hj').trans (Client.descriptor_of_nonneg hfd))
          rw [heq] at hr
          cases hfree.symm.trans hr
        exact (h j c hj' hfd).trans (Function.update_of_ne hne ..).symm
  | use i u =>
      obtain ⟨c, hc, hfd⟩ := hadm
      refine iff_of_true (fun j c' hj hfd' => ?_) trivial
      simp only [next, hc] at hj ⊢
      by_cases hji : j = i
      · subst hji
        obtain rfl := Option.some.inj ((alive_set_self s j (some (c.use u))).symm.trans hj)
        rw [Client.use_fd, Function.update_self, ← h j c hc hfd]
      · have hj' : s.alive j = some c' := (alive_set_of_ne hji _).symm.trans hj
        have hne : c'.fd ≠ c.fd := fun heq => hji (hs.eq_of_fd hc hj' hfd heq).symm
        rw [Function.update_of_ne hne]
        exact h j c' hj' hfd'
  | moveConstruct i other =>
      obtain ⟨hi, c, hc⟩ := hadm
      have hne : i ≠ other := fun heq => by
        rw [heq, hc] at hi
        cases hi
      have hhanded : (s.next (.moveConstruct i other)).Faithful ↔
          (0 ≤ c.fd → c.moveConstruct = c) := by
        simp only [next, hc]
        exact faithful_handed_iff h hne hc rfl rfl rfl
      rw [hhanded, Client.moveConstruct_eq_iff]
      constructor
      · intro hclean c' hc' hfd
        obtain rfl := Option.some.inj (hc.symm.trans hc')
        exact hclean hfd
      · exact fun hclean => hclean c hc
  | moveAssign i other =>
      obtain ⟨⟨target, htarget⟩, c, hc⟩ := hadm
      by_cases hne : i = other
      · have hsame : s.next (.moveAssign i other) = s := by
          simp only [next, htarget, hc, if_pos hne]
        rw [hsame]
        exact iff_of_true h fun hne' => absurd hne hne'
      · have hhanded : (s.next (.moveAssign i other)).Faithful ↔
            (0 ≤ c.fd → target.moveAssign c = c) := by
          simp only [next, htarget, hc, if_neg hne]
          exact faithful_handed_iff h hne hc rfl rfl rfl
        rw [hhanded, Client.moveAssign_eq_iff]
        constructor
        · intro hclean _ target' c' htarget' hc' hfd
          obtain rfl := Option.some.inj (htarget.symm.trans htarget')
          obtain rfl := Option.some.inj (hc.symm.trans hc')
          exact hclean hfd
        · exact fun hclean => hclean hne target c htarget hc
  | destroy i =>
      obtain ⟨c, hc⟩ := hadm
      refine iff_of_true (fun j c' hj hfd => ?_) trivial
      simp only [next, hc] at hj ⊢
      by_cases hji : j = i
      · subst hji
        cases (alive_set_self _ j none).symm.trans hj
      · exact h j c' ((alive_set_of_ne hji _).symm.trans hj) hfd

/-- However clients are constructed, used, moved and destroyed: none closes a descriptor
that is not open, and once all are destroyed each descriptor was closed exactly once.  All
along, every client with a descriptor is as if none had been moved exactly when clients are
moved only where their buffers are already. -/
theorem clients_run {calls : List ClientCall} (hadm : AlwaysStep next Admits {} calls) :
    let s := calls.foldl next {}
    s.descriptors.strays = 0 ∧
      ((∀ i, s.alive i = none) → ∀ r < s.descriptors.issued, s.descriptors.releases r = 1) ∧
      (Always next Faithful {} calls ↔ AlwaysStep next Clean {} calls) := by
  intro s
  have hall : Always next InCustody {} calls :=
    Machine.always_of_ok (fun s _ (h : s.InCustody) ha _ => h.step ha) inCustody_empty hadm hadm
  have hkept : s.InCustody := hall.last
  refine ⟨hkept.sound.aimed, fun hnone r hr => ?_, ?_⟩
  · exact Custody.Kept.released_of_none hkept (fun i => name_custody_of_none (hnone i)) hr
  · exact Machine.always_iff (fun s _ (h : s.InCustody) ha => h.step ha)
      (fun s _ (h : s.InCustody) ha hfaithful => faithful_next_iff h ha hfaithful)
      inCustody_empty nofun hadm

/-- A client is moved with the beginning of a request, which stays behind. -/
def movedTooLate : List ClientCall :=
  [.construct 0 3,
    .use 0 (.readRequest (.received ⟨ascii "PUT /m", by decide, by decide⟩)),
    .moveConstruct 1 0, .destroy 0, .destroy 1]

theorem movedTooLate_noticed : ¬ Always next Faithful {} movedTooLate := by
  have hadm : AlwaysStep next Admits {} movedTooLate :=
    ⟨⟨rfl, by decide, rfl⟩, ⟨_, rfl, by decide⟩, ⟨rfl, _, rfl⟩, ⟨_, rfl⟩, ⟨_, rfl⟩, trivial⟩
  rw [(clients_run hadm).2.2]
  rintro ⟨-, -, hmove, -⟩
  exact absurd (hmove _ rfl (by decide)).1 (by decide)

end Clients

end Fion.Network
