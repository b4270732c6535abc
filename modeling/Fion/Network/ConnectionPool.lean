import Fion.Network.Client
import Mathlib.Logic.Function.Basic

/-!
# Connection pools

`ConnectionPool` maps descriptors to what the server keeps for a connection.  It
is generic in the values, so that one definition serves the sequential model,
where they are `Client` objects, and the concurrent one, where they are the
identities of these objects.
-/

namespace Fion.Network

open Cpp (Exn)

/-- The class `ConnectionPool`: its one member is the map. -/
structure ConnectionPool (κ : Type) where
  clients : Fd → Option κ := fun _ => none

namespace ConnectionPool

variable {κ : Type}

/-- `getClient`. -/
def getClient (pool : ConnectionPool κ) (fd : Fd) : Option κ := pool.clients fd

/-- Store a value under a descriptor, over whatever is there. -/
def put (pool : ConnectionPool κ) (fd : Fd) (client : κ) : ConnectionPool κ :=
  { clients := Function.update pool.clients fd (some client) }

/-- `removeClient`. -/
def removeClient (pool : ConnectionPool κ) (fd : Fd) : ConnectionPool κ :=
  { clients := Function.update pool.clients fd none }

/-- `addClient`: a fresh client under its descriptor. -/
def addClient (pool : ConnectionPool Client) (fd : Fd) : Except Exn (ConnectionPool Client) := do
  let client ← Client.make fd
  return pool.put fd client

@[simp] theorem getClient_put_self (pool : ConnectionPool κ) (fd : Fd) (client : κ) :
    (pool.put fd client).getClient fd = some client := by
  simp [getClient, put]

theorem getClient_put_of_ne {pool : ConnectionPool κ} {fd fd' : Fd} (h : fd' ≠ fd) (client : κ) :
    (pool.put fd client).getClient fd' = pool.getClient fd' := by
  simp [getClient, put, h]

@[simp] theorem getClient_removeClient_self (pool : ConnectionPool κ) (fd : Fd) :
    (pool.removeClient fd).getClient fd = none := by
  simp [getClient, removeClient]

theorem getClient_removeClient_of_ne {pool : ConnectionPool κ} {fd fd' : Fd} (h : fd' ≠ fd) :
    (pool.removeClient fd).getClient fd' = pool.getClient fd' := by
  simp [getClient, removeClient, h]

/-- A descriptor that is not negative is stored with a fresh client. -/
theorem addClient_of_nonneg (pool : ConnectionPool Client) {fd : Fd} (h : 0 ≤ fd) :
    pool.addClient fd = .ok (pool.put fd { fd := fd }) := by
  unfold addClient Client.make
  rw [if_neg (Int.not_lt.mpr h)]
  rfl

end ConnectionPool

end Fion.Network
