import Fion.Machine.Ledger
import Fion.Machine.Reach
import Fion.Network.ConnectionPool
import Fion.Network.Poller

/-!
# The accept thread and the pool threads

The accept thread accepts a descriptor, asks the pool manager for a pool, stores a
client in that pool's map and registers the descriptor with that pool's poller.
Each pool thread polls, and for each event of a batch looks the client up and
either keeps it or unregisters the descriptor and erases the client.  A step of the
system is one of these, by any thread, so runs are all their interleavings.  Steps
that touch no table and no descriptor (reading, processing, sending) are not shown.

What a thread does under one lock is one step.  Erasing a client destroys it, and
its destructor closes the descriptor, in one step with the erasure.  Storing a
client over another one destroys the other one in the same way.

The kernel's descriptor table is a ledger: every accepted connection gets an
identity of its own, since its number can be used again, and a late `close` would
be charged to the connection that has the number by then.  Three things are assumed
of the kernel: `accept` returns no number that is open, `epoll_wait` reports a
registered number at most once in a batch, and `epoll_ctl` succeeds.
-/

namespace Fion.Network

/-! ## States -/

/-- The identity of a connection: how many were accepted before it. -/
abbrev Conn := Nat

/-- What a pool thread and the accept thread share: the members of a pool. -/
structure Tables where
  poller : Poller := {}
  connectionPool : ConnectionPool Conn := {}

/-- An event that `epoll_wait` returned, with the connection it was about. -/
abbrev Notice := Fd × Conn

/-- Where the accept thread is, with the descriptor it has and its connection. -/
inductive AcceptThread (n : Nat) where
  | idle
  /-- `acceptClient` returned. -/
  | accepted (fd : Fd) (conn : Conn)
  /-- `get_pool` returned a pool. -/
  | chosen (fd : Fd) (conn : Conn) (pool : Fin n)
  /-- `ConnectionPool::addClient` returned. -/
  | stored (fd : Fd) (conn : Conn) (pool : Fin n)
  /-- `distribute_client` threw, because there is no pool. -/
  | rejected (fd : Fd) (conn : Conn)

/-- Where a pool thread is, with the events it has not handled yet. -/
inductive PoolThread where
  | polling
  | looping (batch : List Notice)
  /-- `getClient` returned a client for the event. -/
  | handling (event : Notice) (client : Conn) (batch : List Notice)
  /-- `removeFD` returned. -/
  | removing (event : Notice) (client : Conn) (batch : List Notice)

/-- The whole server with `n` pools, and the open descriptors. -/
structure System (n : Nat) where
  tables : Fin n → Tables := fun _ => {}
  threads : Fin n → PoolThread := fun _ => .polling
  acceptThread : AcceptThread n := .idle
  nextPoolIndex : Nat := 0
  kernel : Machine.Ledger Fd := {}

namespace System

variable {n : Nat}

/-- The connection under a descriptor in the map of a pool. -/
def entry (s : System n) (i : Fin n) (fd : Fd) : Option Conn :=
  (s.tables i).connectionPool.getClient fd

/-- The descriptor is registered with the poller of a pool. -/
def Registered (s : System n) (i : Fin n) (fd : Fd) : Prop := (s.tables i).poller.Registered fd

instance (s : System n) (i : Fin n) (fd : Fd) : Decidable (s.Registered i fd) :=
  inferInstanceAs (Decidable ((s.tables i).poller.Registered fd))

/-! ## What the steps do -/

def setAccept (s : System n) (thread : AcceptThread n) : System n :=
  { s with acceptThread := thread }

def setThread (s : System n) (i : Fin n) (thread : PoolThread) : System n :=
  { s with threads := Function.update s.threads i thread }

def setPoller (s : System n) (i : Fin n) (poller : Poller) : System n :=
  { s with tables := Function.update s.tables i { s.tables i with poller := poller } }

def setConnectionPool (s : System n) (i : Fin n) (connectionPool : ConnectionPool Conn) :
    System n :=
  { s with
    tables := Function.update s.tables i { s.tables i with connectionPool := connectionPool } }

def setKernel (s : System n) (kernel : Machine.Ledger Fd) : System n := { s with kernel := kernel }

/-- The destructor of the client that is stored under a descriptor, if there is
one. -/
def destroyClient (s : System n) (i : Fin n) (fd : Fd) : System n :=
  match s.entry i fd with
  | none => s
  | some _ => s.setKernel (s.kernel.release fd)

/-- `ConnectionPool::addClient`. -/
def storeClient (s : System n) (i : Fin n) (fd : Fd) (conn : Conn) : System n :=
  (s.destroyClient i fd).setConnectionPool i ((s.tables i).connectionPool.put fd conn)

/-- `ConnectionPool::removeClient`. -/
def eraseClient (s : System n) (i : Fin n) (fd : Fd) : System n :=
  (s.destroyClient i fd).setConnectionPool i ((s.tables i).connectionPool.removeClient fd)

/-- `PoolManager::get_pool`: the pools take turns. -/
def getPool (s : System n) : Option (Fin n × Nat) :=
  if h : 0 < n then
    some (⟨s.nextPoolIndex % n, Nat.mod_lt _ h⟩, (s.nextPoolIndex + 1) % n)
  else none

@[simp] theorem threads_setThread_self (s : System n) (i : Fin n) (thread : PoolThread) :
    (s.setThread i thread).threads i = thread := by
  simp [setThread]

@[simp] theorem tables_destroyClient (s : System n) (i : Fin n) (fd : Fd) :
    (s.destroyClient i fd).tables = s.tables := by
  unfold destroyClient
  split <;> rfl

theorem eraseClient_setThread (s : System n) (i j : Fin n) (fd : Fd) (thread : PoolThread) :
    (s.setThread i thread).eraseClient j fd = (s.eraseClient j fd).setThread i thread := by
  have hentry : (s.setThread i thread).entry j fd = s.entry j fd := rfl
  unfold eraseClient destroyClient
  rw [hentry]
  cases s.entry j fd <;> rfl

/-! ## Steps -/

/-- One step of one thread. -/
inductive Step : System n → System n → Prop where
  /-- `acceptClient` returns a descriptor, whose number is not open. -/
  | accept {s : System n} (fd : Fd) :
      s.acceptThread = .idle →
      0 ≤ fd →
      s.kernel.holder fd = none →
      Step s ((s.setKernel (s.kernel.acquire fd)).setAccept (.accepted fd s.kernel.issued))
  /-- `get_pool` chooses a pool. -/
  | choose {s : System n} {fd : Fd} {conn : Conn} {pool : Fin n} {next : Nat} :
      s.acceptThread = .accepted fd conn →
      s.getPool = some (pool, next) →
      Step s ({ s with nextPoolIndex := next }.setAccept (.chosen fd conn pool))
  /-- Without pools, `distribute_client` throws, ... -/
  | reject {s : System n} {fd : Fd} {conn : Conn} :
      s.acceptThread = .accepted fd conn →
      s.getPool = none →
      Step s (s.setAccept (.rejected fd conn))
  /-- ... and `accept_loop` closes the descriptor. -/
  | close {s : System n} {fd : Fd} {conn : Conn} :
      s.acceptThread = .rejected fd conn →
      Step s ((s.setKernel (s.kernel.release fd)).setAccept .idle)
  /-- `ConnectionPool::addClient`. -/
  | store {s : System n} {fd : Fd} {conn : Conn} {pool : Fin n} :
      s.acceptThread = .chosen fd conn pool →
      Step s ((s.storeClient pool fd conn).setAccept (.stored fd conn pool))
  /-- `Poller::addFD`. -/
  | register {s : System n} {fd : Fd} {conn : Conn} {pool : Fin n} {poller : Poller} :
      s.acceptThread = .stored fd conn pool →
      (s.tables pool).poller.addFD fd (PollerEvent.READ ||| PollerEvent.EDGE_TRIGGERED) =
        .ok poller →
      Step s ((s.setPoller pool poller).setAccept .idle)
  /-- `Poller::poll` returns events for registered descriptors, one for each. -/
  | poll {s : System n} {i : Fin n} (batch : List Notice) :
      s.threads i = .polling →
      (batch.map Prod.fst).Nodup →
      (∀ event ∈ batch, s.Registered i event.1 ∧ s.kernel.holder event.1 = some event.2) →
      Step s (s.setThread i (.looping batch))
  /-- All events of the batch are handled. -/
  | done {s : System n} {i : Fin n} :
      s.threads i = .looping [] →
      Step s (s.setThread i .polling)
  /-- `getClient` finds no client. -/
  | skip {s : System n} {i : Fin n} {event : Notice} {batch : List Notice} :
      s.threads i = .looping (event :: batch) →
      s.entry i event.1 = none →
      Step s (s.setThread i (.looping batch))
  /-- `getClient` finds a client. -/
  | take {s : System n} {i : Fin n} {event : Notice} {client : Conn} {batch : List Notice} :
      s.threads i = .looping (event :: batch) →
      s.entry i event.1 = some client →
      Step s (s.setThread i (.handling event client batch))
  /-- The connection stays. -/
  | keep {s : System n} {i : Fin n} {event : Notice} {client : Conn} {batch : List Notice} :
      s.threads i = .handling event client batch →
      Step s (s.setThread i (.looping batch))
  /-- Handling the event throws, and `EventLoop::run` drops the rest of the batch. -/
  | abandon {s : System n} {i : Fin n} {event : Notice} {client : Conn} {batch : List Notice} :
      s.threads i = .handling event client batch →
      Step s (s.setThread i .polling)
  /-- `Poller::removeFD`. -/
  | unregister {s : System n} {i : Fin n} {event : Notice} {client : Conn} {batch : List Notice}
      {poller : Poller} :
      s.threads i = .handling event client batch →
      (s.tables i).poller.removeFD event.1 = .ok poller →
      Step s ((s.setPoller i poller).setThread i (.removing event client batch))
  /-- `ConnectionPool::removeClient`. -/
  | erase {s : System n} {i : Fin n} {event : Notice} {client : Conn} {batch : List Notice} :
      s.threads i = .removing event client batch →
      Step s ((s.eraseClient i event.1).setThread i (.looping batch))

/-- The states that a server with `n` pools passes through. -/
def Reached (s : System n) : Prop := Machine.Reachable (· = {}) Step s

end System

end Fion.Network
