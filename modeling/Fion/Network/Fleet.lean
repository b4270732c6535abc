import Fion.Machine.Refinement
import Fion.Network.Outcome

/-!
# Many pools behave as one

A server has several pools, each with an event loop in a thread of its own.  The accept
thread hands every new connection to one of them, in turn, and from then on only the
poller of that pool reports its events.  A pool has its own poller and its own clients;
what handlers and middleware can reach is shared by all of them.

The calls of the pools come one after the other here, in any order.  Then it makes no
difference how many pools there are: each call shows as the same call of one pool that
has all connections (`refines_pool`).
-/

namespace Fion.Network

open Machine (AlwaysStep Refines)

variable {W : Type}

/-! ## States -/

/-- What a pool has for itself. -/
structure PoolMembers where
  poller : Poller := {}
  connectionPool : ConnectionPool Client := {}

/-- The pools of a server and the index of the next one. -/
structure Fleet (W : Type) (n : Nat) where
  members : Fin n → PoolMembers := fun _ => {}
  nextPoolIndex : Nat := 0
  world : W
  log : List (Event W) := []

namespace Fleet

variable {n : Nat}

/-- One of the pools. -/
def pool (s : Fleet W n) (i : Fin n) : Pool W where
  poller := (s.members i).poller
  connectionPool := (s.members i).connectionPool
  world := s.world
  log := s.log

/-- The pool has been changed by a call. -/
def put (s : Fleet W n) (i : Fin n) (p : Pool W) : Fleet W n where
  members := Function.update s.members i
    { poller := p.poller, connectionPool := p.connectionPool }
  nextPoolIndex := s.nextPoolIndex
  world := p.world
  log := p.log

/-- The client under a descriptor in one of the pools. -/
def entry (s : Fleet W n) (i : Fin n) (fd : Fd) : Option Client :=
  (s.members i).connectionPool.getClient fd

/-! ## Calls -/

/-- A call: the accept thread has a new connection, or the poller of a pool reports an
event. -/
inductive Input (n : Nat) where
  | distributeClient (fd : Fd)
  | event (pool : Fin n) (fd : Fd) (events : UInt32) (recv : RecvResult) (send : SendResult)

/-- The call as the only pool of a server gets it. -/
def Input.forPool : Input n → Pool.Input
  | .distributeClient fd => .addClient fd
  | .event _ fd events recv send => .event fd events recv send

/-- `accept` returns no descriptor that is open, and a poller reports events for the
descriptors that are registered with it. -/
def Admits (s : Fleet W n) : Input n → Prop
  | .distributeClient fd => 0 ≤ fd ∧ ∀ i, s.entry i fd = none
  | .event i fd _ _ _ => (s.members i).poller.Registered fd

/-- `PoolManager::get_pool`. -/
def getPool (s : Fleet W n) : Option (Fin n) × Fleet W n :=
  if h : 0 < n then
    (some ⟨s.nextPoolIndex % n, Nat.mod_lt _ h⟩,
      { s with nextPoolIndex := (s.nextPoolIndex + 1) % n })
  else (none, s)

section Routed

variable (regex : RegexEngine) (routes : List (Route W))

/-- The server behind a call.  Without pools `distribute_client` throws. -/
def next (s : Fleet W n) : Input n → Fleet W n
  | .distributeClient fd =>
      match s.getPool with
      | (some i, s') => s'.put i ((s'.pool i).next regex routes (.addClient fd))
      | (none, s') => s'
  | .event i fd events recv send =>
      s.put i ((s.pool i).next regex routes (.event fd events recv send))

end Routed

@[simp] theorem pool_put_self (s : Fleet W n) (i : Fin n) (p : Pool W) :
    (s.put i p).pool i = p := by
  simp [pool, put]

/-- Other pools keep their members. -/
theorem members_put_of_ne {i j : Fin n} (h : j ≠ i) (s : Fleet W n) (p : Pool W) :
    (s.put i p).members j = s.members j := by
  simp [put, h]

theorem members_put_self (s : Fleet W n) (i : Fin n) (p : Pool W) :
    (s.put i p).members i = { poller := p.poller, connectionPool := p.connectionPool } := by
  simp [put]

/-! ## The pool that has all connections -/

/-- The connections of the fleet are those of the pool, each in one of the pools of the
fleet, and the state of the user code and the log are the same. -/
structure Shows (s : Fleet W n) (p : Pool W) : Prop where
  consistent : p.Consistent
  world : s.world = p.world
  log : s.log = p.log
  held : ∀ i fd client, s.entry i fd = some client → p.connectionPool.getClient fd = some client
  found : ∀ fd client, p.connectionPool.getClient fd = some client →
    ∃ i, s.entry i fd = some client
  once : ∀ i j fd, s.entry i fd ≠ none → s.entry j fd ≠ none → i = j
  key : ∀ i fd, (s.entry i fd).isSome ↔ (s.members i).poller.Registered fd

variable {s : Fleet W n} {p : Pool W}

/-- Each pool of the fleet is consistent by itself. -/
theorem Shows.consistent_pool (h : s.Shows p) (i : Fin n) : (s.pool i).Consistent := by
  intro fd
  have hlog : (s.pool i).log = p.log := h.log
  refine ⟨h.key i fd, fun client hclient => ?_, ?_⟩
  · have hr := (h.consistent fd).reading client (h.held i fd client hclient)
    exact
      { owns := hr.owns
        state := hr.state
        response := hr.response
        request := by rw [hlog]; exact hr.request
        notReady := hr.notReady
        onlyReceived := by rw [hlog]; exact hr.onlyReceived }
  · rw [hlog]
    exact (h.consistent fd).once

/-- A pool of the fleet and the one pool are changed alike under one descriptor, which no
other pool of the fleet has. -/
theorem Shows.put (h : s.Shows p) (i : Fin n) (fd : Fd) {q p' : Pool W} (hq : q.Consistent)
    (hp' : p'.Consistent) (hothers : ∀ j, j ≠ i → s.entry j fd = none)
    (hworld : q.world = p'.world) (hlog : q.log = p'.log)
    (hself : q.connectionPool.getClient fd = p'.connectionPool.getClient fd)
    (hframe : ∀ fd', fd' ≠ fd →
      q.connectionPool.getClient fd' = s.entry i fd' ∧
        p'.connectionPool.getClient fd' = p.connectionPool.getClient fd') :
    (s.put i q).Shows p' := by
  have hown : (s.put i q).entry i fd = p'.connectionPool.getClient fd := by
    rw [entry, members_put_self, ← hself]
  have hnone : ∀ j, j ≠ i → (s.put i q).entry j fd = none := by
    intro j hj
    rw [entry, members_put_of_ne hj]
    exact hothers j hj
  have hsame : ∀ j fd', fd' ≠ fd → (s.put i q).entry j fd' = s.entry j fd' := by
    intro j fd' hfd'
    by_cases hj : j = i
    · rw [hj, entry, members_put_self]
      exact (hframe fd' hfd').1
    · rw [entry, members_put_of_ne hj]
      rfl
  refine ⟨hp', hworld, hlog, ?_, ?_, ?_, ?_⟩
  · intro j fd' client hclient
    by_cases hfd' : fd' = fd
    · subst hfd'
      by_cases hj : j = i
      · rw [hj, hown] at hclient
        exact hclient
      · rw [hnone j hj] at hclient
        cases hclient
    · rw [hsame j fd' hfd'] at hclient
      exact (hframe fd' hfd').2.trans (h.held j fd' client hclient)
  · intro fd' client hclient
    by_cases hfd' : fd' = fd
    · subst hfd'
      exact ⟨i, hown.trans hclient⟩
    · obtain ⟨j, hj⟩ := h.found fd' client ((hframe fd' hfd').2.symm.trans hclient)
      exact ⟨j, (hsame j fd' hfd').trans hj⟩
  · intro j k fd' hj hk
    by_cases hfd' : fd' = fd
    · subst hfd'
      have hplace : ∀ l, (s.put i q).entry l fd' ≠ none → l = i := by
        intro l hl
        by_contra hne
        exact hl (hnone l hne)
      exact (hplace j hj).trans (hplace k hk).symm
    · rw [hsame j fd' hfd'] at hj
      rw [hsame k fd' hfd'] at hk
      exact h.once j k fd' hj hk
  · intro j fd'
    by_cases hj : j = i
    · rw [hj, entry, members_put_self]
      exact (hq fd').key
    · rw [entry, members_put_of_ne hj]
      exact h.key j fd'

section Runs

variable (regex : RegexEngine) (routes : List (Route W))

/-- A new server shows a new pool. -/
theorem shows_start (w : W) : Shows ({ world := w } : Fleet W n) { world := w } where
  consistent := Pool.consistent_start w
  world := rfl
  log := rfl
  held := by simp [entry, ConnectionPool.getClient]
  found := by simp [ConnectionPool.getClient]
  once := by simp [entry, ConnectionPool.getClient]
  key := by simp [entry, ConnectionPool.getClient, Poller.Registered]

/-- A connection is added to the pool whose turn it is. -/
theorem Shows.distributeClient (h : s.Shows p) (hn : 0 < n) {fd : Fd}
    (hadm : s.Admits (.distributeClient fd)) :
    p.Admits (.addClient fd) ∧
      (s.next regex routes (.distributeClient fd)).Shows (p.next regex routes (.addClient fd)) := by
  have hp : p.Admits (.addClient fd) := by
    refine ⟨hadm.1, ?_⟩
    cases hget : p.connectionPool.getClient fd with
    | none => rfl
    | some client =>
        obtain ⟨i, hi⟩ := h.found fd client hget
        rw [hadm.2 i] at hi
        cases hi
  refine ⟨hp, ?_⟩
  let i : Fin n := ⟨s.nextPoolIndex % n, Nat.mod_lt _ hn⟩
  let s' : Fleet W n := { s with nextPoolIndex := (s.nextPoolIndex + 1) % n }
  have hs' : s'.Shows p := ⟨h.consistent, h.world, h.log, h.held, h.found, h.once, h.key⟩
  have hnext : s.next regex routes (.distributeClient fd) =
      s'.put i ((s'.pool i).next regex routes (.addClient fd)) := by
    simp only [next, getPool, dif_pos hn]
    rfl
  have hi : (s'.pool i).Admits (.addClient fd) := ⟨hadm.1, hadm.2 i⟩
  have hconsistent := hs'.consistent_pool i
  have hq := Pool.consistent_next regex routes hconsistent hi
  have hp' := Pool.consistent_next regex routes h.consistent hp
  rw [hnext]
  rw [Pool.next, Pool.addClient_of_new hi.1 hi.2 (hconsistent.not_registered hi.2)] at hq ⊢
  rw [Pool.next, Pool.addClient_of_new hp.1 hp.2 (h.consistent.not_registered hp.2)] at hp' ⊢
  refine hs'.put i fd hq hp' (fun j _ => hadm.2 j) h.world ?_ ?_ fun fd' hfd' => ⟨?_, ?_⟩
  · exact congrArg (· ++ [Event.added fd]) h.log
  · simp [Pool.enroll]
  · exact ConnectionPool.getClient_put_of_ne hfd' _
  · exact ConnectionPool.getClient_put_of_ne hfd' _

/-- An event is handled by the pool that has the connection. -/
theorem Shows.event (h : s.Shows p) {i : Fin n} {fd : Fd}
    (hadm : (s.members i).poller.Registered fd) (events : UInt32) (recv : RecvResult)
    (send : SendResult) :
    (s.next regex routes (.event i fd events recv send)).Shows
      (p.next regex routes (.event fd events recv send)) := by
  obtain ⟨client, hentry⟩ := Option.isSome_iff_exists.mp ((h.key i fd).mpr hadm)
  have hget : (s.pool i).connectionPool.getClient fd = some client := hentry
  have hget' := h.held i fd client hentry
  have hconsistent := h.consistent_pool i
  have hi : (s.pool i).Admits (.event fd events recv send) := trivial
  have hp : p.Admits (.event fd events recv send) := trivial
  have hq := Pool.consistent_next regex routes hconsistent hi
  have hp' := Pool.consistent_next regex routes h.consistent hp
  rw [next]
  simp only [Pool.next_event regex routes hconsistent, hget] at hq ⊢
  simp only [Pool.next_event regex routes h.consistent, hget'] at hp' ⊢
  have hworld : (s.pool i).world = p.world := h.world
  rw [hworld] at hq ⊢
  refine h.put i fd hq hp' (fun j hj => ?_) rfl ?_ ?_ fun fd' hfd' => ⟨?_, ?_⟩
  · by_contra hne
    exact hj (h.once j i fd hne (by rw [hentry]; exact Option.some_ne_none client))
  · rw [Pool.settle_log, Pool.settle_log]
    exact congrArg (· ++ _) h.log
  · rw [Pool.getClient_settle_self, Pool.getClient_settle_self]
  · exact Pool.getClient_settle_of_ne _ _ _ hfd'
  · exact Pool.getClient_settle_of_ne _ _ _ hfd'

/-- A new connection takes no other one out of a poller. -/
theorem registered_distributeClient (h : s.Shows p) (hn : 0 < n) {fd : Fd}
    (hadm : s.Admits (.distributeClient fd)) (j : Fin n) {fd' : Fd}
    (hreg : (s.members j).poller.Registered fd') :
    ((s.next regex routes (.distributeClient fd)).members j).poller.Registered fd' := by
  have hfd' : fd' ≠ fd := by
    rintro rfl
    have hentry := (h.key j fd').mpr hreg
    rw [hadm.2 j] at hentry
    cases hentry
  simp only [next, getPool, dif_pos hn]
  by_cases hj : j = ⟨s.nextPoolIndex % n, Nat.mod_lt _ hn⟩
  · subst hj
    have hnone : (s.pool ⟨s.nextPoolIndex % n, Nat.mod_lt _ hn⟩).connectionPool.getClient fd =
        none := hadm.2 _
    have hadd := Pool.addClient_of_new hadm.1 hnone
      ((h.consistent_pool _).not_registered hnone)
    rw [members_put_self]
    show (Pool.next regex routes (s.pool _) (.addClient fd)).poller.Registered fd'
    rw [Pool.next, hadd]
    exact (Poller.registered_register_of_ne hfd' _).mpr hreg
  · rwa [members_put_of_ne hj]

/-- An event takes at most its own descriptor out of the poller of its pool. -/
theorem registered_event (h : s.Shows p) (i : Fin n) (fd : Fd) (events : UInt32)
    (recv : RecvResult) (send : SendResult) {j : Fin n} {fd' : Fd} (hne : j ≠ i ∨ fd' ≠ fd)
    (hreg : (s.members j).poller.Registered fd') :
    ((s.next regex routes (.event i fd events recv send)).members j).poller.Registered fd' := by
  rw [next]
  by_cases hj : j = i
  · subst hj
    have hfd' : fd' ≠ fd := hne.resolve_left fun hself => hself rfl
    rw [members_put_self, Pool.next_event regex routes (h.consistent_pool j)]
    cases (s.pool j).connectionPool.getClient fd with
    | none => exact hreg
    | some client => exact (Pool.registered_settle_of_ne _ _ _ hfd').mpr hreg
  · rwa [members_put_of_ne hj]

variable {regex routes} in
/-- Each call of a server with some pools shows as the same call of the only pool of another
server. -/
theorem refines_pool (hn : 0 < n) :
    Refines (next regex routes) Admits (Pool.next regex routes) Pool.Admits
      (fun (_ : Fleet W n) a => [a.forPool]) Shows where
  step := by
    intro s p a h hadm
    cases a with
    | distributeClient fd =>
        obtain ⟨hp, hnext⟩ := h.distributeClient regex routes hn hadm
        exact ⟨⟨hp, trivial⟩, hnext⟩
    | event i fd events recv send =>
        exact ⟨⟨trivial, trivial⟩, h.event regex routes hadm events recv send⟩

variable {regex routes} in
/-- In every run of a server with some pools, the only pool of another server, given the
same calls in the same order, is left with the same connections, the same state of the
user code and the same log. -/
theorem Shows.run (hn : 0 < n) (h : s.Shows p) {as : List (Input n)}
    (has : AlwaysStep (next regex routes) Admits s as) :
    AlwaysStep (Pool.next regex routes) Pool.Admits p (as.map Input.forPool) ∧
      (as.foldl (next regex routes) s).Shows
        ((as.map Input.forPool).foldl (Pool.next regex routes) p) := by
  have hrun := (refines_pool hn).run h has
  rwa [Machine.emitted_eq_flatMap, ← List.map_eq_flatMap] at hrun

end Runs

end Fleet

end Fion.Network
