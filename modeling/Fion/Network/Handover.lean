import Fion.Network.Ownership
import Fion.Network.PoolSteps

/-!
# Handing a connection to a pool

`distribute_client` stores a client in the map of a pool and then registers its
descriptor.  When the registration fails it throws, and `accept_loop` closes the
descriptor, which the map still has.  The steps of the threads assume that
`epoll_ctl` succeeds; here it can fail in `addFD`.

`addsAtomically_iff` is about one call of `Pool::addClient`, and
`handedOver_iff` about what happens afterwards, in every interleaving.
-/

namespace Fion.Network

open Cpp (Exn)

/-! ## One call -/

/-- A call of `addClient` that throws leaves the tables as they were, with the same
clients in them. -/
def Pool.AddsAtomically {W : Type} (p : Pool W) (fd : Fd) (fault : Option Errno) : Prop :=
  ∀ e, (p.addClient fd fault).1 = .error e →
    (p.addClient fd fault).2.connectionPool = p.connectionPool ∧
      (p.addClient fd fault).2.poller = p.poller ∧ p.destroyed fd = []

/-- What `addClient` leaves when registering the descriptor throws. -/
theorem Pool.addClient_of_throws {W : Type} {p : Pool W} {fd : Fd} (hfd : 0 ≤ fd)
    {fault : Option Errno} {e : Exn}
    (h : p.poller.addFD fd (PollerEvent.READ ||| PollerEvent.EDGE_TRIGGERED) fault = .error e) :
    p.addClient fd fault = (.error e,
      { p with connectionPool := p.connectionPool.put fd { fd := fd } }.record
        (p.destroyed fd ++ [Event.added fd])) := by
  simp only [Pool.addClient, ConnectionPool.addClient_of_nonneg _ hfd, Pool.record, h]

/-- A descriptor is handed to a pool atomically exactly when registering it does not
fail. -/
theorem Pool.addsAtomically_iff {W : Type} (p : Pool W) {fd : Fd} (hfd : 0 ≤ fd)
    (fault : Option Errno) :
    p.AddsAtomically fd fault ↔ fault = none ∧ ¬ p.poller.Registered fd := by
  constructor
  · intro hatomic
    by_contra hfails
    obtain ⟨e, hthrows⟩ := Poller.addFD_throws hfails
      (PollerEvent.READ ||| PollerEvent.EDGE_TRIGGERED)
    have hcall := Pool.addClient_of_throws hfd hthrows
    obtain ⟨hsame, -, hnone⟩ := hatomic e (by rw [hcall])
    rw [hcall] at hsame
    -- the client that is stored is new, or it has replaced another one
    have hstored : p.connectionPool.getClient fd = some { fd := fd } :=
      (congrArg (·.getClient fd) hsame).symm.trans (ConnectionPool.getClient_put_self ..)
    rw [Pool.destroyed, hstored] at hnone
    cases hnone
  · rintro ⟨rfl, hnot⟩ e hthrows
    have hadded := Poller.addFD_of_not_registered hnot
      (PollerEvent.READ ||| PollerEvent.EDGE_TRIGGERED)
    simp only [Pool.addClient, ConnectionPool.addClient_of_nonneg _ hfd, Pool.record,
      hadded] at hthrows
    cases hthrows

/-! ## Runs -/

namespace System

variable {n : Nat}

/-- One step of one thread, with the error that `epoll_ctl` reports in it, if it does.
Only `addFD` is concerned. -/
inductive FaultyStep : System n → Option Errno → System n → Prop where
  | plain {s s' : System n} :
      Step s s' →
      FaultyStep s none s'
  /-- `addFD` throws, and `distribute_client` with it. -/
  | refuse {s : System n} {fd : Fd} {conn : Conn} {pool : Fin n} {fault : Option Errno} {e : Exn} :
      s.acceptThread = .stored fd conn pool →
      (s.tables pool).poller.addFD fd (PollerEvent.READ ||| PollerEvent.EDGE_TRIGGERED) fault =
        .error e →
      FaultyStep s fault (s.setAccept (.rejected fd conn))

/-- A run goes from state to state. -/
def follow (_ : System n) (step : Option Errno × System n) : System n := step.2

/-- The threads can take the step. -/
def Takes (s : System n) (step : Option Errno × System n) : Prop :=
  FaultyStep s step.1 step.2

/-- `epoll_ctl` reports no error. -/
def Faultless (_ : System n) (step : Option Errno × System n) : Prop := step.1 = none

/-- What has to hold when connections are handed over. -/
structure HandedOver (s : System n) : Prop where
  /-- When `distribute_client` has thrown, no pool has anything of the connection. -/
  undone : ∀ fd conn, s.acceptThread = .rejected fd conn →
    ∀ i, s.entry i fd = none ∧ ¬ s.Registered i fd
  /-- An accepted connection was closed once, or it is open. -/
  closed_once : ∀ conn < s.kernel.issued,
    (s.kernel.releases conn = 1 ∧ ∀ fd, s.kernel.holder fd ≠ some conn) ∨
      (s.kernel.releases conn = 0 ∧ ∃ fd, s.kernel.holder fd = some conn)
  /-- No number was closed that was not open. -/
  no_stray_close : s.kernel.strays = 0
  /-- An entry has the connection that its number belongs to, and nobody else has it. -/
  owned : ∀ i fd conn, s.entry i fd = some conn →
    s.kernel.holder fd = some conn ∧ ¬ s.acceptThread.Holds fd conn ∧
      ∀ j, (s.entry j fd).isSome = true → j = i

/-- All of this follows from the invariant of the threads. -/
theorem Inv.handedOver {s : System n} (h : s.Inv) : s.HandedOver where
  undone := by
    intro fd conn hrejected i
    have hnone : s.entry i fd = none := (h.carried fd conn (hrejected ▸ ⟨rfl, rfl⟩)).2 i
    exact ⟨hnone, h.not_registered_of_none hnone⟩
  closed_once := fun _ hconn => h.kernel.released_or_held hconn
  no_stray_close := h.kernel.aimed
  owned := by
    intro i fd conn hentry
    refine ⟨h.entry_open i fd conn hentry, fun hholds => ?_, fun j hsome => ?_⟩
    · rw [(h.carried fd conn hholds).2 i] at hentry
      cases hentry
    · obtain ⟨conn', hentry'⟩ := Option.isSome_iff_exists.mp hsome
      exact h.entry_unique j i fd conn' conn hentry' hentry

/-- A step keeps the invariant when `epoll_ctl` reports no error. -/
theorem inv_follow {s : System n} {step : Option Errno × System n} (h : s.Inv)
    (htakes : s.Takes step) (hfaultless : s.Faultless step) : (s.follow step).Inv := by
  obtain ⟨fault, s'⟩ := step
  obtain rfl : fault = none := hfaultless
  cases htakes with
  | plain hstep => exact inv_next h hstep
  | refuse hstored hthrows =>
      -- without an error of the kernel, only a registered descriptor is refused
      rw [Poller.addFD_of_not_registered (h.not_registered_of_stored hstored)] at hthrows
      cases hthrows

/-- When `epoll_ctl` reports an error, the map still has the descriptor that was
rejected. -/
theorem handedOver_follow_iff {s : System n} {step : Option Errno × System n} (h : s.Inv)
    (htakes : s.Takes step) : (s.follow step).HandedOver ↔ s.Faultless step := by
  constructor
  · intro hhanded
    obtain ⟨fault, s'⟩ := step
    cases htakes with
    | plain _ => rfl
    | @refuse fd conn pool _ _ hstored _ =>
        have hentry : s.entry pool fd = some conn := h.stored fd conn pool hstored
        have hnone : s.entry pool fd = none := (hhanded.undone fd conn rfl pool).1
        exact nomatch hentry.symm.trans hnone
  · exact fun hfaultless => (inv_follow h htakes hfaultless).handedOver

/-- Every call of `addClient` is atomic, and in every state of every run of the threads
connections are handed over as they should be, exactly when `epoll_ctl` adds each
descriptor to its pool's poller. -/
theorem handedOver_iff (W : Type) :
    (∀ (p : Pool W) (fd : Fd) (fault : Option Errno), 0 ≤ fd →
      (p.AddsAtomically fd fault ↔ fault = none ∧ ¬ p.poller.Registered fd)) ∧
    ∀ steps : List (Option Errno × System n), Machine.AlwaysStep follow Takes {} steps →
      (Machine.Always follow HandedOver {} steps ↔
        Machine.AlwaysStep follow Faultless {} steps) := by
  refine ⟨fun p fd fault hfd => p.addsAtomically_iff hfd fault, fun steps htakes => ?_⟩
  exact Machine.always_iff_of_ok (fun _ _ h htakes hfaultless => inv_follow h htakes hfaultless)
    (fun _ _ h htakes => handedOver_follow_iff h htakes) inv_empty inv_empty.handedOver htakes

/-- The only pool is chosen every time. -/
theorem getPool_one {s : System 1} (h : s.nextPoolIndex = 0) : s.getPool = some (0, 0) := by
  simp [getPool, h]

/-- Descriptor 5 is accepted and handed to the only pool, which had nothing. -/
theorem acceptedClient_handedOver :
    ({ world := () } : Pool Unit).AddsAtomically 5 none ∧
      ∃ s : System 1, s.entry 0 5 = some 0 ∧ s.Registered 0 5 ∧ s.HandedOver := by
  let s₁ : System 1 := (setKernel {} (Machine.Ledger.acquire {} 5)).setAccept (.accepted 5 0)
  let s₂ := { s₁ with nextPoolIndex := 0 }.setAccept (.chosen 5 0 0)
  let s₃ := (s₂.storeClient 0 5 0).setAccept (.stored 5 0 0)
  let s₄ := (s₃.setPoller 0 ((s₃.tables 0).poller.register 5
    (PollerEvent.READ ||| PollerEvent.EDGE_TRIGGERED))).setAccept .idle
  obtain ⟨hcall, hrun⟩ := handedOver_iff (n := 1) Unit
  refine ⟨(hcall _ 5 none (by decide)).mpr ⟨rfl, by decide⟩, s₄, rfl, rfl, ?_⟩
  have htakes : Machine.AlwaysStep follow Takes ({} : System 1)
      [(none, s₁), (none, s₂), (none, s₃), (none, s₄)] :=
    ⟨.plain (.accept 5 rfl (by decide) rfl), .plain (.choose rfl (getPool_one rfl)),
      .plain (.store rfl), .plain (.register rfl (Poller.addFD_of_not_registered (by decide) _)),
      trivial⟩
  exact ((hrun _ htakes).mpr ⟨rfl, rfl, rfl, rfl, trivial⟩).2.2.2.2

/-- The kernel cannot add descriptor 5 to the poller.  It is closed, and the number is
accepted again: storing the new client destroys the one that was left in the map, whose
destructor closes the new connection. -/
theorem refusedClient_closes_next :
    ¬ ({ world := () } : Pool Unit).AddsAtomically 5 (some .ENOMEM) ∧
      ∃ steps : List (Option Errno × System 1), Machine.AlwaysStep follow Takes {} steps ∧
        ¬ Machine.Always follow HandedOver {} steps ∧
        (steps.foldl follow {}).acceptThread = .stored 5 1 0 ∧
        (steps.foldl follow {}).entry 0 5 = some 1 ∧
        (steps.foldl follow {}).kernel.holder 5 = none ∧
        (steps.foldl follow {}).kernel.releases 1 = 1 := by
  let s₁ : System 1 := (setKernel {} (Machine.Ledger.acquire {} 5)).setAccept (.accepted 5 0)
  let s₂ := { s₁ with nextPoolIndex := 0 }.setAccept (.chosen 5 0 0)
  let s₃ := (s₂.storeClient 0 5 0).setAccept (.stored 5 0 0)
  let s₄ := s₃.setAccept (.rejected 5 0)
  let s₅ := (s₄.setKernel (s₄.kernel.release 5)).setAccept .idle
  let s₆ := (s₅.setKernel (s₅.kernel.acquire 5)).setAccept (.accepted 5 1)
  let s₇ := { s₆ with nextPoolIndex := 0 }.setAccept (.chosen 5 1 0)
  let s₈ := (s₇.storeClient 0 5 1).setAccept (.stored 5 1 0)
  refine ⟨fun hatomic => ?_, [(none, s₁), (none, s₂), (none, s₃), (some .ENOMEM, s₄),
    (none, s₅), (none, s₆), (none, s₇), (none, s₈)], ?_, fun hhanded => ?_, rfl, rfl, rfl, rfl⟩
  · have hnone := congrArg (·.getClient 5) (hatomic _ rfl).1
    cases hnone
  · exact ⟨.plain (.accept 5 rfl (by decide) rfl), .plain (.choose rfl (getPool_one rfl)),
      .plain (.store rfl), .refuse rfl rfl, .plain (.close rfl),
      .plain (.accept 5 rfl (by decide) rfl), .plain (.choose rfl (getPool_one rfl)),
      .plain (.store rfl), trivial⟩
  · have hrejected : s₄.HandedOver := hhanded.2.2.2.2.1
    have hnone := (hrejected.undone 5 0 rfl 0).1
    cases hnone

end System

end Fion.Network
