import Fion.Network.Ownership
import Fion.Network.PoolInvariant

/-!
# The threads run the pool's code

The steps of the threads are cut out of `Pool::addClient` and
`Pool::handle_client_event` at the calls that reach a table, and they carry the
identity of a connection where the pool has a client object.  The two models meet
in `Tables.Shows`: the tables have the poller of the pool, and entries under the
same descriptors.

`addClient_simulated` and `handleClientEvent_simulated` run a call of the pool as
steps of one thread while the other threads wait, and end in tables that show the
pool after the call.
-/

namespace Fion.Network

variable {W : Type} {n : Nat}

/-- Runs of the threads. -/
abbrev Steps : System n → System n → Prop := Relation.ReflTransGen System.Step

/-- The tables are those of the pool, client objects aside. -/
structure Tables.Shows (t : Tables) (p : Pool W) : Prop where
  poller : t.poller = p.poller
  keys : ∀ fd, t.connectionPool.getClient fd = none ↔ p.connectionPool.getClient fd = none

namespace Tables

theorem Shows.record {t : Tables} {p : Pool W} (h : t.Shows p) (es : List (Event W)) :
    t.Shows (p.record es) := ⟨h.poller, h.keys⟩

theorem Shows.setWorld {t : Tables} {p : Pool W} (h : t.Shows p) (w : W) :
    t.Shows (p.setWorld w) := ⟨h.poller, h.keys⟩

theorem Shows.registered {t : Tables} {p : Pool W} (h : t.Shows p) {fd : Fd} :
    t.poller.Registered fd ↔ p.poller.Registered fd := by rw [h.poller]

/-- A client that is written back is no new entry. -/
theorem Shows.store {t : Tables} {p : Pool W} (h : t.Shows p) {fd : Fd} {client : Client}
    (hheld : p.Holds fd client) (client' : Client) : t.Shows (p.store fd client') where
  poller := h.poller
  keys := by
    intro fd'
    by_cases hfd : fd' = fd
    · subst hfd
      simp [h.keys, Pool.store, hheld.get]
    · simp [h.keys, Pool.store, ConnectionPool.getClient_put_of_ne hfd]

/-- Both models drop an entry alike. -/
theorem Shows.drop {t : Tables} {p : Pool W} (h : t.Shows p) (fd : Fd) :
    Shows { poller := t.poller.unregister fd
            connectionPool := t.connectionPool.removeClient fd } (p.drop fd) where
  poller := by rw [h.poller]; rfl
  keys := by
    intro fd'
    by_cases hfd : fd' = fd
    · subst hfd
      simp [Pool.drop]
    · simp [h.keys, Pool.drop, ConnectionPool.getClient_removeClient_of_ne hfd]

/-- Both models add an entry alike. -/
theorem Shows.enroll {t : Tables} {p : Pool W} (h : t.Shows p) (fd : Fd) (conn : Conn) :
    Shows { poller := t.poller.register fd (PollerEvent.READ ||| PollerEvent.EDGE_TRIGGERED)
            connectionPool := t.connectionPool.put fd conn } (p.enroll fd) where
  poller := by rw [h.poller]; rfl
  keys := by
    intro fd'
    by_cases hfd : fd' = fd
    · subst hfd
      simp [Pool.enroll]
    · simp [h.keys, Pool.enroll, ConnectionPool.getClient_put_of_ne hfd]

end Tables

namespace System

/-! ## Adding a connection -/

/-- The accept thread runs `Pool::addClient` on the descriptor it has. -/
theorem addClient_simulated {s : System n} (h : s.Reached) {i : Fin n} {p : Pool W}
    (hshows : (s.tables i).Shows p) {fd : Fd} {conn : Conn}
    (hchosen : s.acceptThread = .chosen fd conn i) (hfd : 0 ≤ fd) :
    ∃ p' s', p.addClient fd = (.ok (), p') ∧ Steps s s' ∧ (s'.tables i).Shows p' ∧
      s'.acceptThread = .idle := by
  have hnone : s.entry i fd = none := (h.inv.carried fd conn (hchosen ▸ ⟨rfl, rfl⟩)).2 i
  have hunreg : ¬ s.Registered i fd := h.inv.not_registered_of_none hnone
  have hadded : p.addClient fd = (.ok (), p.enroll fd) :=
    Pool.addClient_of_new hfd ((hshows.keys fd).mp hnone) (fun hreg =>
      hunreg (hshows.registered.mpr hreg))
  have hstore := Step.store hchosen
  have hpoller : ((s.storeClient i fd conn).tables i).poller = (s.tables i).poller := by
    simp [storeClient, setConnectionPool]
  have hnotyet : ¬ (((s.storeClient i fd conn).setAccept (.stored fd conn i)).tables
      i).poller.Registered fd := by rwa [setAccept, hpoller]
  have hregister := Step.register rfl (Poller.addFD_of_not_registered hnotyet _)
  refine ⟨p.enroll fd, _, hadded, .tail (.single hstore) hregister, ?_, rfl⟩
  convert hshows.enroll fd conn using 1
  simp [setAccept, setPoller, storeClient, setConnectionPool]

/-! ## Handling an event -/

variable {s : System n} {i : Fin n} {p : Pool W} {event : Notice} {batch : List Notice}

/-- A pool thread leaves the connection of an event as it is. -/
theorem pass_simulated (hlooping : s.threads i = .looping (event :: batch)) :
    ∃ s', Steps s s' ∧ s'.tables i = s.tables i ∧ s'.threads i = .looping batch := by
  cases hentry : s.entry i event.1 with
  | none =>
      exact ⟨_, .single (.skip hlooping hentry), rfl, threads_setThread_self ..⟩
  | some client =>
      have htake := Step.take hlooping hentry
      have hkeep := Step.keep (threads_setThread_self s i (.handling event client batch))
      exact ⟨_, .tail (.single htake) hkeep, rfl, threads_setThread_self ..⟩

/-- A pool thread ends the connection of an event. -/
theorem close_simulated (hlooping : s.threads i = .looping (event :: batch)) {client : Conn}
    (hentry : s.entry i event.1 = some client) (hreg : s.Registered i event.1) :
    ∃ s', Steps s s' ∧
      s'.tables i = { poller := (s.tables i).poller.unregister event.1
                      connectionPool := (s.tables i).connectionPool.removeClient event.1 } ∧
      s'.threads i = .looping batch := by
  have htake := Step.take hlooping hentry
  have hunregister := Step.unregister (threads_setThread_self s i (.handling event client batch))
    (Poller.removeFD_of_registered hreg)
  have herase := Step.erase (threads_setThread_self
    ((s.setThread i (.handling event client batch)).setPoller i
      ((s.tables i).poller.unregister event.1)) i (.removing event client batch))
  refine ⟨_, .tail (.tail (.single htake) hunregister) herase, ?_, threads_setThread_self ..⟩
  simp [eraseClient, setConnectionPool, setThread, setPoller]

/-- A pool thread runs `Pool::handle_client_event` on an event. -/
theorem handleClientEvent_simulated (hshows : (s.tables i).Shows p) (hp : p.Consistent)
    (hlooping : s.threads i = .looping (event :: batch)) (regex : RegexEngine)
    (routes : List (Route W)) (events : UInt32) (recv : RecvResult) (send : SendResult) :
    ∃ p' s', p.handleClientEvent regex routes event.1 events recv send = (.ok (), p') ∧
      Steps s s' ∧ (s'.tables i).Shows p' ∧ s'.threads i = .looping batch := by
  obtain ⟨p', heq, hexit⟩ := Pool.handleClientEvent_cases regex routes
    (fun client (hget : p.connectionPool.getClient event.1 = some client) => hp.holds hget)
    events recv send
  have hclose : ∀ client, p.Holds event.1 client →
      ∃ s', Steps s s' ∧ (s'.tables i).Shows (p.drop event.1) ∧ s'.threads i = .looping batch := by
    intro client hheld
    obtain ⟨conn, hentry⟩ : ∃ conn, s.entry i event.1 = some conn := by
      refine Option.ne_none_iff_exists'.mp fun hnone => ?_
      exact nomatch ((hshows.keys event.1).mp hnone).symm.trans hheld.get
    obtain ⟨s', hsteps, htables, hthread⟩ := close_simulated hlooping hentry
      (hshows.registered.mpr hheld.registered)
    exact ⟨s', hsteps, htables ▸ hshows.drop event.1, hthread⟩
  cases hexit with
  | unchanged _ =>
      obtain ⟨s', hsteps, htables, hthread⟩ := pass_simulated hlooping
      exact ⟨p, s', heq, hsteps, htables ▸ hshows, hthread⟩
  | waiting hheld _ _ =>
      obtain ⟨s', hsteps, htables, hthread⟩ := pass_simulated hlooping
      exact ⟨_, s', heq, hsteps, htables ▸ (hshows.store hheld _).record _, hthread⟩
  | closed _ hheld =>
      obtain ⟨s', hsteps, hdrop, hthread⟩ := hclose _ hheld
      exact ⟨_, s', heq, hsteps, hdrop.record _, hthread⟩
  | served hcompletes _ _ =>
      obtain ⟨s', hsteps, hdrop, hthread⟩ := hclose _ hcompletes.held
      exact ⟨_, s', heq, hsteps, (hdrop.setWorld _).record _, hthread⟩

end System

end Fion.Network
