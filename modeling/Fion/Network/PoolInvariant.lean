import Fion.Machine.Reach
import Fion.Network.PoolSteps

/-!
# The pool invariant

Between two calls a pool is `Consistent`: its connections are those whose
descriptors are registered, and each of them is still reading, with a request
buffer that holds what arrived since it was added and is not complete.

The invariant is stated one descriptor at a time (`ConsistentAt`), because every
call concerns one descriptor.  A call keeps it for the others by
`ConsistentAt.frame`, so only its own descriptor needs an argument.
-/

namespace Fion.Network

open Cpp (Bytes ascii)

variable {W : Type}

/-! ## Reading the log -/

/-- The descriptor an event is about. -/
def Event.fd : Event W → Fd
  | .added fd => fd
  | .received fd _ => fd
  | .processed fd _ => fd
  | .called fd _ => fd
  | .prepared fd _ => fd
  | .sent fd _ => fd
  | .closed fd => fd

/-- What an event adds to the history of a connection.  Adding the connection
begins a new one. -/
def Event.note (fd : Fd) (events : List (Event W)) (e : Event W) : List (Event W) :=
  if e.fd = fd then
    match e with
    | .added _ => []
    | e => events ++ [e]
  else events

/-- What was seen of a connection since it was added. -/
def history (log : List (Event W)) (fd : Fd) : List (Event W) := log.foldl (Event.note fd) []

/-- The event adds a connection. -/
def Event.isAdded : Event W → Bool
  | .added _ => true
  | _ => false

@[simp] theorem history_added (log : List (Event W)) (fd : Fd) :
    history (log ++ [.added fd]) fd = [] := by
  simp [history, Event.note, Event.fd]

/-- Events about other connections are not part of the history. -/
theorem history_append_of_ne {es : List (Event W)} {fd : Fd} (h : ∀ e ∈ es, e.fd ≠ fd)
    (log : List (Event W)) : history (log ++ es) fd = history log fd := by
  induction es generalizing log with
  | nil => rw [List.append_nil]
  | cons e es ih =>
      rw [List.append_cons, ih (fun e' he' => h e' (List.mem_cons_of_mem e he'))]
      simp only [history, List.foldl_append, List.foldl_cons, List.foldl_nil]
      exact if_neg (h e List.mem_cons_self)

/-- Events about the connection extend its history. -/
theorem history_append_of_fd {es : List (Event W)} {fd : Fd}
    (h : ∀ e ∈ es, e.fd = fd ∧ e.isAdded = false) (log : List (Event W)) :
    history (log ++ es) fd = history log fd ++ es := by
  induction es generalizing log with
  | nil => simp
  | cons e es ih =>
      obtain ⟨hfd, hadded⟩ := h e List.mem_cons_self
      have hnote : history (log ++ [e]) fd = history log fd ++ [e] := by
        simp only [history, List.foldl_append, List.foldl_cons, List.foldl_nil, Event.note, hfd,
          if_true]
        cases e with
        | added fd => cases hadded
        | received | processed | called | prepared | sent | closed => rfl
      rw [List.append_cons, ih (fun e' he' => h e' (List.mem_cons_of_mem e he')), hnote,
        List.append_assoc, List.singleton_append]

/-- Everything seen while a connection is served is about that connection. -/
theorem fd_of_mem_served {fd : Fd} {chunk requestData : Bytes} {calls : List (Call W)}
    {response taken : Bytes} {e : Event W}
    (h : e ∈ Event.received fd chunk :: servedEvents fd requestData calls response taken) :
    e.fd = fd ∧ e.isAdded = false := by
  simp only [servedEvents, List.mem_cons, List.mem_append, List.mem_map, List.not_mem_nil,
    or_false] at h
  rcases h with rfl | rfl | ⟨call, -, rfl⟩ | rfl | rfl | rfl <;> exact ⟨rfl, rfl⟩

/-- The bytes an event brings. -/
def Event.receivedData : Event W → Bytes
  | .received _ data => data
  | _ => []

/-- The event is a run of `process_request`. -/
def Event.isProcessed : Event W → Bool
  | .processed .. => true
  | _ => false

/-- The bytes that arrived on a connection since it was added. -/
def received (log : List (Event W)) (fd : Fd) : Bytes :=
  (history log fd).flatMap Event.receivedData

/-- The number of requests processed on a connection since it was added. -/
def processed (log : List (Event W)) (fd : Fd) : Nat := (history log fd).countP Event.isProcessed

/-- Serving a connection processes one request. -/
theorem countP_isProcessed_served (fd : Fd) (chunk requestData : Bytes) (calls : List (Call W))
    (response taken : Bytes) :
    (Event.received fd chunk :: servedEvents fd requestData calls response taken).countP
      Event.isProcessed = 1 := by
  have hcalls : (calls.map (Event.called fd)).countP Event.isProcessed = 0 := by
    rw [List.countP_eq_zero]
    intro e he
    obtain ⟨call, -, rfl⟩ := List.mem_map.mp he
    exact Bool.false_ne_true
  rw [servedEvents, List.countP_cons_of_neg Bool.false_ne_true, List.countP_cons_of_pos rfl,
    List.countP_append, hcalls]
  rfl

/-! ## The invariant -/

namespace Pool

/-- A connection between two events: it is reading, nothing is to be sent, its
request is what arrived since it was added, not complete yet, and nothing but
data was seen of it. -/
structure Reading (p : Pool W) (fd : Fd) (client : Client) : Prop where
  owns : client.fd = fd
  state : client.state = .readingRequest
  response : client.responseBuffer = []
  request : client.requestBuffer = received p.log fd
  notReady : client.isRequestReady = false
  onlyReceived : ∀ e ∈ history p.log fd, ∃ data, e = .received fd data

/-- The invariant for one descriptor. -/
structure ConsistentAt (p : Pool W) (fd : Fd) : Prop where
  key : (p.connectionPool.getClient fd).isSome ↔ p.poller.Registered fd
  reading : ∀ client, p.connectionPool.getClient fd = some client → p.Reading fd client
  once : processed p.log fd ≤ 1

/-- The invariant: the map and the interest list have the same descriptors, every
connection is reading, and no connection had more than one request processed. -/
def Consistent (p : Pool W) : Prop := ∀ fd, p.ConsistentAt fd

/-- A consistent pool holds the connections that it has. -/
theorem Consistent.holds {p : Pool W} (h : p.Consistent) {fd : Fd} {client : Client}
    (hget : p.connectionPool.getClient fd = some client) : p.Holds fd client where
  get := hget
  owns := ((h fd).reading client hget).owns
  registered := (h fd).key.mp (by rw [hget]; rfl)

/-- No request of a connection that is reading was processed. -/
theorem Reading.unprocessed {p : Pool W} {fd : Fd} {client : Client} (h : p.Reading fd client) :
    processed p.log fd = 0 := by
  refine List.countP_eq_zero.mpr fun e he => ?_
  obtain ⟨data, rfl⟩ := h.onlyReceived e he
  exact Bool.false_ne_true

/-- What happens under other descriptors does not matter. -/
theorem ConsistentAt.frame {p p' : Pool W} {fd : Fd} (h : p.ConsistentAt fd)
    (hget : p'.connectionPool.getClient fd = p.connectionPool.getClient fd)
    (hreg : p'.poller.Registered fd ↔ p.poller.Registered fd)
    (hlog : history p'.log fd = history p.log fd) : p'.ConsistentAt fd where
  key := by rw [hget, hreg]; exact h.key
  reading := by
    intro client hclient
    have hr := h.reading client (hget ▸ hclient)
    exact
      { owns := hr.owns
        state := hr.state
        response := hr.response
        request := by rw [received, hlog]; exact hr.request
        notReady := hr.notReady
        onlyReceived := by rw [hlog]; exact hr.onlyReceived }
  once := by rw [processed, hlog]; exact h.once

/-! ## Every call keeps it -/

/-- A new pool is consistent. -/
theorem consistent_start (w : W) : ({ world := w } : Pool W).Consistent := by
  intro fd
  exact ⟨by simp [ConnectionPool.getClient, Poller.Registered], by simp [ConnectionPool.getClient],
    Nat.zero_le 1⟩

/-- A connection that is not there is not registered either. -/
theorem Consistent.not_registered {p : Pool W} (h : p.Consistent) {fd : Fd}
    (hnew : p.connectionPool.getClient fd = none) : ¬ p.poller.Registered fd := by
  intro hreg
  have hsome := (h fd).key.mpr hreg
  rw [hnew] at hsome
  cases hsome

/-- Adding a connection that is not there keeps the invariant. -/
theorem consistent_enroll {p : Pool W} (h : p.Consistent) (fd : Fd) : (p.enroll fd).Consistent := by
  intro fd'
  by_cases heq : fd' = fd
  · subst heq
    refine ⟨by simp [enroll], ?_, ?_⟩
    · intro client hclient
      simp only [enroll, ConnectionPool.getClient_put_self, Option.some.injEq] at hclient
      subst hclient
      exact
        { owns := rfl, state := rfl, response := rfl, request := by simp [enroll, received]
          notReady := rfl, onlyReceived := by simp [enroll] }
    · simp [enroll, processed]
  · refine (h fd').frame (ConnectionPool.getClient_put_of_ne heq _)
      (Poller.registered_register_of_ne heq _) (history_append_of_ne ?_ _)
    simpa [Event.fd] using Ne.symm heq

variable {regex : RegexEngine} {routes : List (Route W)}

/-- Dropping a connection keeps the invariant, if at most one request was
processed on it. -/
theorem consistent_drop {p : Pool W} (h : p.Consistent) {fd : Fd} {es : List (Event W)}
    (hes : ∀ e ∈ es, e.fd = fd ∧ e.isAdded = false)
    (honce : (history p.log fd ++ es).countP Event.isProcessed ≤ 1) (w : W) :
    (((p.drop fd).setWorld w).record es).Consistent := by
  intro fd'
  by_cases heq : fd' = fd
  · subst heq
    refine ⟨by simp [drop], by simp [drop], ?_⟩
    rw [processed, record_log, history_append_of_fd hes]
    exact honce
  · refine (h fd').frame (ConnectionPool.getClient_removeClient_of_ne heq)
      (Poller.registered_unregister_of_ne heq) (history_append_of_ne (fun e he => ?_) _)
    rw [(hes e he).1]
    exact Ne.symm heq

/-- Storing what arrived keeps the invariant, as long as it is not a complete
request. -/
theorem consistent_store {p : Pool W} (h : p.Consistent) {fd : Fd} {client : Client}
    (hheld : p.Holds fd client) {data : Bytes}
    (hready : requestReady (client.requestBuffer ++ data) = false) :
    ((p.store fd (client.appendRequest data)).record [.received fd data]).Consistent := by
  intro fd'
  by_cases heq : fd' = fd
  · subst heq
    have hr := (h fd').reading client hheld.get
    have hhistory : history (p.log ++ [.received fd' data]) fd' =
        history p.log fd' ++ [.received fd' data] :=
      history_append_of_fd (by simp [Event.fd, Event.isAdded]) _
    refine ⟨by simpa [store] using hheld.registered, ?_, ?_⟩
    · intro client' hclient'
      obtain rfl : client.appendRequest data = client' := by simpa [store] using hclient'
      exact
        { owns := hr.owns
          state := hr.state
          response := hr.response
          request := by
            rw [Client.appendRequest_requestBuffer, hr.request, record_log, received, received]
            simp only [store, hhistory, List.flatMap_append]
            simp [Event.receivedData]
          notReady := hready
          onlyReceived := by
            intro e he
            simp only [record_log, store, hhistory, List.mem_append, List.mem_singleton] at he
            rcases he with he | rfl
            · exact hr.onlyReceived e he
            · exact ⟨data, rfl⟩ }
    · rw [processed, record_log, store, hhistory, List.countP_append]
      simpa [Event.isProcessed, processed] using (h fd').once
  · refine (h fd').frame (ConnectionPool.getClient_put_of_ne heq _) Iff.rfl
      (history_append_of_ne ?_ _)
    simpa [Event.fd] using Ne.symm heq

/-- Every exit of `handle_client_event` keeps the invariant. -/
theorem consistent_exit {p p' : Pool W} (h : p.Consistent) {fd : Fd} {events : UInt32}
    {recv : RecvResult} {send : SendResult}
    (hexit : Exit regex routes p fd events recv send p') : p'.Consistent := by
  cases hexit with
  | unchanged _ => exact h
  | closed _ hheld =>
      refine consistent_drop h (by simp [Event.fd, Event.isAdded]) ?_ p.world
      simpa [Event.isProcessed, processed] using (h fd).once
  | waiting hheld _ hready => exact consistent_store h hheld hready
  | @served client chunk raw w' calls hcompletes _ _ =>
      refine consistent_drop h (fun e he => fd_of_mem_served he) ?_ w'
      have hzero := ((h fd).reading client hcompletes.held.get).unprocessed
      rw [processed] at hzero
      rw [List.countP_append, countP_isProcessed_served, hzero]

variable (regex routes) in
/-- Every event keeps the invariant, and is handled without an exception. -/
theorem consistent_handleClientEvent {p : Pool W} (h : p.Consistent) (fd : Fd) (events : UInt32)
    (recv : RecvResult) (send : SendResult) :
    ∃ p', p.handleClientEvent regex routes fd events recv send = (.ok (), p') ∧
      p'.Consistent := by
  obtain ⟨p', heq, hexit⟩ := handleClientEvent_cases regex routes
    (fun client hget => h.holds hget) events recv send
  exact ⟨p', heq, consistent_exit h hexit⟩

/-! ## Runs -/

/-- A call that a pool receives: a new connection, or an event from the loop. -/
inductive Input where
  | addClient (fd : Fd)
  | event (fd : Fd) (events : UInt32) (recv : RecvResult) (send : SendResult)

/-- A new connection has a descriptor that is not in use. -/
def Admits (p : Pool W) : Input → Prop
  | .addClient fd => 0 ≤ fd ∧ p.connectionPool.getClient fd = none
  | .event .. => True

section Runs

variable (regex routes)

/-- The pool that a call leaves, whether it returns or throws. -/
def next (p : Pool W) : Input → Pool W
  | .addClient fd => (p.addClient fd).2
  | .event fd events recv send => (p.handleClientEvent regex routes fd events recv send).2

/-- The pools between two calls of a run from a new pool. -/
def BetweenCalls (p : Pool W) : Prop :=
  Machine.Reachable (fun p => ∃ w, p = { world := w })
    (fun p p' => ∃ input, p.Admits input ∧ p' = p.next regex routes input) p

end Runs

variable (regex routes) in
/-- Every call keeps the invariant. -/
theorem consistent_next {p : Pool W} (h : p.Consistent) {input : Input}
    (hadm : p.Admits input) : (p.next regex routes input).Consistent := by
  cases input with
  | addClient fd =>
      rw [next, addClient_of_new hadm.1 hadm.2 (h.not_registered hadm.2)]
      exact consistent_enroll h fd
  | event fd events recv send =>
      obtain ⟨p', heq, hcons⟩ := consistent_handleClientEvent regex
        routes h fd events recv send
      rw [next, heq]
      exact hcons

/-- Between two calls a pool is consistent. -/
theorem BetweenCalls.consistent {p : Pool W} (h : BetweenCalls regex routes p) :
    p.Consistent := by
  refine h.always ?_ ?_
  · rintro p ⟨w, rfl⟩
    exact consistent_start w
  · rintro p p' hp ⟨input, hadm, rfl⟩
    exact consistent_next regex routes hp hadm

/-- However the calls were ordered, and whatever the kernel and the user code did
in them: the connections are those whose descriptors are registered, each is
reading, has nothing to send, and holds exactly what arrived since it was added,
which is not a complete request.  No connection had more than one request
processed. -/
theorem keys_registered_and_reading {p : Pool W} (h : BetweenCalls regex routes p) :
    (∀ fd, (p.connectionPool.getClient fd).isSome ↔ p.poller.Registered fd) ∧
    (∀ fd client, p.connectionPool.getClient fd = some client →
      client.state = .readingRequest ∧ client.responseBuffer = [] ∧
      client.requestBuffer = received p.log fd ∧ client.isRequestReady = false) ∧
    ∀ fd, processed p.log fd ≤ 1 := by
  have hcons := h.consistent
  refine ⟨fun fd => (hcons fd).key, fun fd client hget => ?_, fun fd => (hcons fd).once⟩
  have hr := (hcons fd).reading client hget
  exact ⟨hr.state, hr.response, hr.request, hr.notReady⟩

/-- A pool in the middle of a request: one connection, five bytes of a start line. -/
def halfRead : Pool Unit :=
  [Input.addClient 3, .event 3 PollerEvent.READ (.received ⟨ascii "GET /", by decide, by decide⟩)
    .wouldBlock].foldl (next (fun _ => .ok fun _ => none) []) { world := () }

theorem halfRead_betweenCalls :
    BetweenCalls (fun _ => .ok fun _ => none) [] halfRead :=
  ⟨_, ⟨(), rfl⟩, (Relation.ReflTransGen.refl.tail
    ⟨.addClient 3, ⟨by decide, rfl⟩, rfl⟩).tail
    ⟨.event 3 PollerEvent.READ (.received ⟨ascii "GET /", by decide, by decide⟩) .wouldBlock,
      trivial, rfl⟩⟩

theorem halfRead_reading :
    (∀ client, halfRead.connectionPool.getClient 3 = some client →
      client.requestBuffer = received halfRead.log 3 ∧ client.isRequestReady = false) ∧
    processed halfRead.log 3 ≤ 1 := by
  obtain ⟨-, hreading, honce⟩ := keys_registered_and_reading halfRead_betweenCalls
  exact ⟨fun client hget => (hreading 3 client hget).2.2, honce 3⟩

end Pool

end Fion.Network
