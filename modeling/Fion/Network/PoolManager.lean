import Fion.Data.RoundRobin
import Fion.Network.Restart
import Fion.Network.Threads

/-!
# Handing clients to the pools

The class `PoolManager` is the `pools` of the server and the index of the pool that
gets the next client.  The pools get the clients of the accept thread in turn
(`distribute_eq`).

A start adds its pools to those of earlier starts, and starts them all.  So after some
cycles of a start and a stop there are as many pools as all starts have asked for
together, and the clients go to all of them (`keepsPools_iff`).
-/

namespace Fion.Network

open Cpp (Exn)

/-- The class `Server`, with the whole of its pool manager. -/
structure BalancedServer extends Server where
  nextPoolIndex : Nat := 0

namespace BalancedServer

def setServer (s : BalancedServer) (server : Server) : BalancedServer :=
  { s with toServer := server }

/-! ## The pool manager -/

/-- `get_pool`, as an index into the pools. -/
def getPool (s : BalancedServer) : Option Nat × BalancedServer :=
  if s.pools = [] then (none, s)
  else
    (some (s.nextPoolIndex % s.pools.length),
      { s with nextPoolIndex := (s.nextPoolIndex + 1) % s.pools.length })

/-- `distribute_client`, with the pool that gets the client. -/
def distributeClient (s : BalancedServer) : Except Exn Nat × BalancedServer :=
  match s.getPool with
  | (some index, s') => (.ok index, s')
  | (none, s') => (.error (.runtimeError "No pools available to distribute client"), s')

/-- The accept thread hands over some clients.  One that no pool gets is closed. -/
def distribute (s : BalancedServer) : Nat → List (Except Exn Nat) × BalancedServer
  | 0 => ([], s)
  | clients + 1 =>
    let (result, s') := s.distributeClient
    let (results, s'') := s'.distribute clients
    (result :: results, s'')

/-! ## Cycles -/

/-- A start, the clients that are accepted behind it, and a stop. -/
structure Cycle where
  host : String
  port : UInt16
  calls : SocketCalls
  numThreads : Nat
  clients : Nat

/-- The system calls of the start succeed. -/
def Cycle.Succeeds (c : Cycle) : Prop :=
  c.calls.Bound c.host ∧ c.calls.listen = true

/-- The start of a cycle. -/
def startCycle (s : BalancedServer) (c : Cycle) : BalancedServer :=
  s.setServer (s.start c.host c.port c.calls c.numThreads).1

def stop (s : BalancedServer) : BalancedServer := s.setServer s.toServer.stop

def cycle (s : BalancedServer) (c : Cycle) : BalancedServer :=
  ((s.startCycle c).distribute c.clients).2.stop

/-- A new server after some cycles. -/
def afterCycles (history : List Cycle) : BalancedServer := history.foldl cycle {}

/-- What is expected of the pools when `s` has been started with this number of threads
and is `s'` now: there are this number of pools, this number of event loops run, and
every client goes to a pool that the start has added. -/
structure KeepsPools (s s' : BalancedServer) (numThreads : Nat) : Prop where
  pools : s'.pools.length = numThreads
  loops : s'.pools.count .looping = numThreads
  clients : ∀ clients, ∀ result ∈ (s'.distribute clients).1,
    ∃ index, result = .ok index ∧ s.pools.length ≤ index ∧ index < s'.pools.length

/-! ## Handing over clients -/

/-- The choice is the one that the accept thread makes between its steps. -/
theorem getPool_eq (s : BalancedServer) (t : System s.pools.length)
    (h : t.nextPoolIndex = s.nextPoolIndex) :
    (t.getPool.map fun choice => (choice.1.val, choice.2)) =
      s.getPool.1.map fun index => (index, s.getPool.2.nextPoolIndex) := by
  by_cases hpools : s.pools = []
  · have hnone : ¬ 0 < s.pools.length := by simp [hpools]
    rw [System.getPool, dif_neg hnone, getPool, if_pos hpools]
    rfl
  · rw [System.getPool, dif_pos (List.length_pos_iff.mpr hpools), getPool, if_neg hpools]
    simp only [Option.map_some, h]

/-- Handing over clients only moves the index. -/
theorem toServer_distribute (s : BalancedServer) (clients : Nat) :
    (s.distribute clients).2.toServer = s.toServer := by
  induction clients generalizing s with
  | zero => rfl
  | succ clients ih =>
      have hclient : s.distributeClient.2.toServer = s.toServer := by
        unfold distributeClient getPool
        by_cases hpools : s.pools = [] <;> simp [hpools]
      rw [distribute, ih, hclient]

/-- The pools get the clients in turn. -/
theorem distribute_eq (s : BalancedServer) (hpools : s.pools ≠ []) (clients : Nat) :
    (s.distribute clients).1 =
      (RoundRobin.window s.pools.length s.nextPoolIndex clients).map .ok := by
  induction clients generalizing s with
  | zero => rfl
  | succ clients ih =>
      let s' := { s with nextPoolIndex := (s.nextPoolIndex + 1) % s.pools.length }
      have hclient : s.distributeClient = (.ok (s.nextPoolIndex % s.pools.length), s') := by
        simp [distributeClient, getPool, hpools, s']
      rw [RoundRobin.window_succ, List.map_cons]
      simp only [distribute, hclient]
      rw [ih s' hpools]

/-- Without pools the client goes nowhere. -/
theorem distribute_nil (s : BalancedServer) (hpools : s.pools = []) :
    (s.distribute 1).1 =
      [.error (.runtimeError "No pools available to distribute client")] := by
  simp [distribute, distributeClient, getPool, hpools]

/-! ## Cycles -/

theorem startCycle_eq {s : BalancedServer} {c : Cycle} (hstopped : s.running = false)
    (h : c.Succeeds) : s.startCycle c = s.setServer (s.started c.calls c.numThreads) := by
  rw [startCycle, Server.start_returns hstopped h.1 h.2]

/-- A cycle leaves the server stopped, with the pools it has added. -/
theorem cycle_spec {s : BalancedServer} {c : Cycle} (hstopped : s.running = false)
    (h : c.Succeeds) : (s.cycle c).running = false ∧
      (s.cycle c).pools.length = s.pools.length + c.numThreads := by
  have hserver : (s.cycle c).toServer = (s.started c.calls c.numThreads).stop := by
    rw [cycle, startCycle_eq hstopped h, stop, setServer, toServer_distribute]
    rfl
  rw [hserver, Server.stop_of_running rfl]
  exact ⟨rfl, by simp [Server.started]⟩

/-- The threads that some starts have asked for together. -/
def threadsAsked (history : List Cycle) : Nat := (history.map Cycle.numThreads).sum

/-- No pool is ever removed. -/
theorem afterCycles_spec {history : List Cycle} (h : ∀ c ∈ history, c.Succeeds) :
    (afterCycles history).running = false ∧
      (afterCycles history).pools.length = threadsAsked history := by
  suffices hrun : ∀ s : BalancedServer, s.running = false →
      (history.foldl cycle s).running = false ∧
        (history.foldl cycle s).pools.length = s.pools.length + threadsAsked history by
    obtain ⟨hstopped, hpools⟩ := hrun {} rfl
    exact ⟨hstopped, hpools.trans (Nat.zero_add _)⟩
  induction history with
  | nil => exact fun s hstopped => ⟨hstopped, rfl⟩
  | cons c history ih =>
      intro s hstopped
      obtain ⟨hcycle, hpools⟩ := cycle_spec hstopped (h c List.mem_cons_self)
      obtain ⟨hlast, hsum⟩ := ih (fun other hother => h other (List.mem_cons_of_mem _ hother))
        (s.cycle c) hcycle
      refine ⟨hlast, ?_⟩
      rw [List.foldl_cons, hsum, hpools, threadsAsked, threadsAsked, List.map_cons,
        List.sum_cons, Nat.add_assoc]

/-- After some cycles a server is started once more.  Then the pools are as many as this
start has asked for, and get all clients, exactly when the earlier starts have asked for
none and this one asks for some. -/
theorem keepsPools_iff {history : List Cycle} (hhistory : ∀ c ∈ history, c.Succeeds)
    {c : Cycle} (hc : c.Succeeds) :
    KeepsPools (afterCycles history) ((afterCycles history).startCycle c) c.numThreads ↔
      (∀ c' ∈ history, c'.numThreads = 0) ∧ 0 < c.numThreads := by
  obtain ⟨hstopped, hpools⟩ := afterCycles_spec hhistory
  have hstarted : ((afterCycles history).startCycle c).pools =
      List.replicate (threadsAsked history + c.numThreads) .looping := by
    rw [startCycle_eq hstopped hc, setServer, Server.started, hpools]
  have hsum : threadsAsked history = 0 ↔ ∀ c' ∈ history, c'.numThreads = 0 := by
    simp [threadsAsked, List.sum_eq_zero_iff_forall_eq_nat]
  rw [← hsum]
  constructor
  · rintro ⟨hlength, -, hclients⟩
    rw [hstarted, List.length_replicate] at hlength
    refine ⟨Nat.add_eq_right.mp hlength, Nat.pos_of_ne_zero fun hzero => ?_⟩
    have hnone : ((afterCycles history).startCycle c).pools = [] := by
      rw [hstarted, hlength, hzero, List.replicate_zero]
    obtain ⟨index, hindex, -⟩ := hclients 1 _ (by
      rw [distribute_nil _ hnone]
      exact List.mem_singleton_self _)
    cases hindex
  · rintro ⟨hzero, hpos⟩
    have hlength : ((afterCycles history).startCycle c).pools.length = c.numThreads := by
      rw [hstarted, List.length_replicate, hzero, Nat.zero_add]
    refine ⟨hlength, ?_, fun clients result hresult => ?_⟩
    · rw [hstarted, List.count_replicate_self, hzero, Nat.zero_add]
    · have hsome : ((afterCycles history).startCycle c).pools ≠ [] :=
        List.ne_nil_of_length_pos (hlength ▸ hpos)
      rw [distribute_eq _ hsome] at hresult
      obtain ⟨index, hindex, rfl⟩ := List.mem_map.mp hresult
      exact ⟨index, rfl, by rw [hpools, hzero]; exact Nat.zero_le _,
        RoundRobin.lt_of_mem_window (hlength ▸ hpos) hindex⟩

/-- A first start with four threads, of a server that has been started and stopped with
none. -/
theorem keepsPools_first :
    KeepsPools (afterCycles [⟨"0.0.0.0", 8080, {}, 0, 3⟩])
      ((afterCycles [⟨"0.0.0.0", 8080, {}, 0, 3⟩]).startCycle ⟨"0.0.0.0", 8080, {}, 4, 0⟩) 4 :=
  have hcalls : SocketCalls.Bound {} "0.0.0.0" := ⟨by decide, rfl, rfl, .inl rfl, rfl⟩
  (keepsPools_iff (by simpa [Cycle.Succeeds] using hcalls) ⟨hcalls, rfl⟩).mpr ⟨by simp, by decide⟩

/-- A server is started with four threads, stopped, and started with four threads again:
it has eight pools, and the next client goes to one of the old ones. -/
theorem not_keepsPools_second :
    let s := afterCycles [⟨"0.0.0.0", 8080, {}, 4, 0⟩]
    let s' := s.startCycle ⟨"0.0.0.0", 8080, {}, 4, 0⟩
    s'.pools = List.replicate 8 .looping ∧ (s'.distribute 1).1 = [.ok 0] ∧
      ¬ KeepsPools s s' 4 := by
  refine ⟨rfl, rfl, fun h => ?_⟩
  have hlength : 8 = 4 := h.pools
  cases hlength

end BalancedServer

end Fion.Network
