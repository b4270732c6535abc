import Fion.Network.Pool

/-!
# What one event does

`handle_client_event` has six exits.  Each gets an equation here, under the
conditions that lead to it, for a connection whose descriptor is registered:
the event is for no connection (`handleClientEvent_unknown`), it reports an error
or a hangup (`handleClientEvent_broken`), it is not a read event
(`handleClientEvent_quiet`), the read finds no data (`handleClientEvent_eof`),
the request is not complete yet (`handleClientEvent_wait`), or it is processed and
answered (`handleClientEvent_serve`).  The two exits behind the answer, for a send
error and for a response that was sent, leave the same state.

`handleClientEvent_cases` collects them.  Every later invariant is proved from it.
-/

namespace Fion.Network

open Cpp (Bytes)

variable {W : Type} {regex : RegexEngine} {routes : List (Route W)}

/-! ## Processing never throws -/

/-- The answer to an exception can be printed. -/
theorem internalServerError_prints : ∃ raw, internalServerError.toRawResponse = .ok raw :=
  ⟨_, rfl⟩

/-- A printed response is not empty. -/
theorem toRawResponse_ne_nil {r : Http.Response} {raw : Bytes} (h : r.toRawResponse = .ok raw) :
    raw ≠ [] := by
  obtain ⟨startLine, -, rfl⟩ := Http.Response.toRawResponse_eq_ok_iff.mp h
  simp

variable (regex routes) in
/-- The buffer holds what the `try` block yields if that prints, and the fixed
response to an exception else. -/
theorem processRequest_cases (client : Client) (w : W) :
    ∃ response raw w' calls, response.toRawResponse = .ok raw ∧
      processRequest regex routes client w = (.ok (client.setResponse raw), w', calls) ∧
      ((respond regex routes client.requestBuffer w).1 = .ok response ∨
        response = internalServerError ∧ ∀ own raw',
          (respond regex routes client.requestBuffer w).1 = .ok own →
          own.toRawResponse ≠ .ok raw') := by
  unfold processRequest
  cases respond regex routes client.requestBuffer w with
  | mk outcome rest =>
      obtain ⟨w', calls⟩ := rest
      simp only
      cases hb : outcome.bind client.prepareResponse with
      | ok client' =>
          obtain ⟨response, rfl, hprep⟩ := Cpp.bind_eq_ok.mp hb
          obtain ⟨raw, hraw, rfl⟩ := Client.prepareResponse_eq_ok_iff.mp hprep
          exact ⟨response, raw, w', calls, hraw, rfl, .inl rfl⟩
      | error e =>
          obtain ⟨raw, hraw⟩ := internalServerError_prints
          refine ⟨internalServerError, raw, w', calls, hraw, ?_, .inr ⟨rfl, ?_⟩⟩
          · rw [Client.prepareResponse_eq_ok_iff.mpr ⟨raw, hraw, rfl⟩]
          · intro own raw' hown hraw'
            have hok : outcome.bind client.prepareResponse = .ok (client.setResponse raw') :=
              Cpp.bind_eq_ok.mpr
                ⟨own, hown, Client.prepareResponse_eq_ok_iff.mpr ⟨raw', hraw', rfl⟩⟩
            rw [hok] at hb
            cases hb

variable (regex routes) in
/-- `process_request` returns, and leaves a printed response in the response
buffer of an otherwise unchanged client. -/
theorem processRequest_returns (client : Client) (w : W) :
    ∃ raw w' calls, raw ≠ [] ∧
      processRequest regex routes client w =
        (.ok (client.setResponse raw), w', calls) := by
  obtain ⟨response, raw, w', calls, hraw, hprocess, -⟩ :=
    processRequest_cases regex routes client w
  exact ⟨raw, w', calls, toRawResponse_ne_nil hraw, hprocess⟩

/-- With something to send, what the socket took is what `send` reported. -/
theorem writeResponse_taken {client : Client} (h : client.responseBuffer ≠ []) (send : SendResult) :
    ∃ client', client'.fd = client.fd ∧
      client.writeResponse send = (client', send.count, send.taken client.responseBuffer) := by
  rw [Client.writeResponse, if_neg h]
  split
  · exact ⟨client.setResponse [], rfl, rfl⟩
  · exact ⟨client, rfl, rfl⟩

/-! ## The state of one connection -/

/-- The event reports an error or a hangup. -/
abbrev Broken (events : UInt32) : Prop := events &&& (PollerEvent.ERROR ||| PollerEvent.HANGUP) ≠ 0

/-- The event is a read event and reports no error and no hangup. -/
def Readable (events : UInt32) : Prop := ¬ Broken events ∧ events &&& PollerEvent.READ ≠ 0

/-- What is seen when a request is processed: the data, the user code that runs,
the response, the part of it that is sent, and the close. -/
def servedEvents (fd : Fd) (requestData : Bytes) (calls : List (Call W)) (response taken : Bytes) :
    List (Event W) :=
  .processed fd requestData ::
    (calls.map (.called fd) ++ [.prepared fd response, .sent fd taken, .closed fd])

namespace Pool

/-- The connection under `fd` is `client`, and its descriptor is registered. -/
structure Holds (p : Pool W) (fd : Fd) (client : Client) : Prop where
  get : p.connectionPool.getClient fd = some client
  owns : client.fd = fd
  registered : p.poller.Registered fd

/-- The pool without the connection under `fd`. -/
def drop (p : Pool W) (fd : Fd) : Pool W :=
  { p with
    poller := p.poller.unregister fd
    connectionPool := p.connectionPool.removeClient fd }

@[simp] theorem record_nil (p : Pool W) : p.record [] = p := by simp [record]

@[simp] theorem record_record (p : Pool W) (es es' : List (Event W)) :
    (p.record es).record es' = p.record (es ++ es') := by
  simp [record]

@[simp] theorem record_log (p : Pool W) (es : List (Event W)) :
    (p.record es).log = p.log ++ es := rfl

@[simp] theorem record_poller (p : Pool W) (es : List (Event W)) :
    (p.record es).poller = p.poller := rfl

@[simp] theorem record_connectionPool (p : Pool W) (es : List (Event W)) :
    (p.record es).connectionPool = p.connectionPool := rfl

@[simp] theorem record_world (p : Pool W) (es : List (Event W)) :
    (p.record es).world = p.world := rfl

@[simp] theorem setWorld_log (p : Pool W) (w : W) : (p.setWorld w).log = p.log := rfl

@[simp] theorem setWorld_poller (p : Pool W) (w : W) : (p.setWorld w).poller = p.poller := rfl

@[simp] theorem setWorld_connectionPool (p : Pool W) (w : W) :
    (p.setWorld w).connectionPool = p.connectionPool := rfl

/-- A client that was stored in a connection pool and is removed leaves no
trace. -/
theorem removeClient_put (pool : ConnectionPool Client) (fd : Fd) (client : Client) :
    (pool.put fd client).removeClient fd = pool.removeClient fd := by
  simp [ConnectionPool.put, ConnectionPool.removeClient]

/-- Storing the client that is there changes nothing. -/
theorem store_self {p : Pool W} {fd : Fd} {client : Client} (h : p.Holds fd client) :
    p.store fd client = p := by
  have hput : p.connectionPool.put fd client = p.connectionPool := by
    have hget : p.connectionPool.clients fd = some client := h.get
    simp [ConnectionPool.put, ← hget]
  simp [store, hput]

/-- A stored client is held under a registered descriptor. -/
theorem holds_store {p : Pool W} {fd : Fd} (hreg : p.poller.Registered fd) {client : Client}
    (hown : client.fd = fd) : (p.store fd client).Holds fd client :=
  ⟨ConnectionPool.getClient_put_self _ _ _, hown, hreg⟩

theorem Holds.record {p : Pool W} {fd : Fd} {client : Client} (h : p.Holds fd client)
    (es : List (Event W)) : (p.record es).Holds fd client := ⟨h.get, h.owns, h.registered⟩

/-- Dropping a connection forgets the client that was stored for it. -/
@[simp] theorem drop_store (p : Pool W) (fd : Fd) (client : Client) :
    (p.store fd client).drop fd = p.drop fd := by
  simp [drop, store, removeClient_put]

@[simp] theorem drop_setWorld (p : Pool W) (fd : Fd) (w : W) :
    (p.setWorld w).drop fd = (p.drop fd).setWorld w := rfl

@[simp] theorem setWorld_record (p : Pool W) (es : List (Event W)) (w : W) :
    (p.record es).setWorld w = (p.setWorld w).record es := rfl

@[simp] theorem drop_record (p : Pool W) (fd : Fd) (es : List (Event W)) :
    (p.record es).drop fd = (p.drop fd).record es := rfl

/-- A connection that is there can be closed. -/
theorem closeClient_of_holds {p : Pool W} {fd : Fd} {client : Client} (h : p.Holds fd client) :
    p.closeClient fd = (.ok (), (p.drop fd).record [.closed fd]) := by
  rw [closeClient, Poller.removeFD_of_registered h.registered]
  simp [drop, destroyed, record, h.get, h.owns]

/-- The pool with a new connection. -/
def enroll (p : Pool W) (fd : Fd) : Pool W :=
  { p with
    poller := p.poller.register fd (PollerEvent.READ ||| PollerEvent.EDGE_TRIGGERED)
    connectionPool := p.connectionPool.put fd { fd := fd }
    log := p.log ++ [.added fd] }

/-- A connection that is not there can be added. -/
theorem addClient_of_new {p : Pool W} {fd : Fd} (hfd : 0 ≤ fd)
    (hnew : p.connectionPool.getClient fd = none) (hunreg : ¬ p.poller.Registered fd) :
    p.addClient fd = (.ok (), p.enroll fd) := by
  rw [addClient, ConnectionPool.addClient_of_nonneg _ hfd]
  simp only [record_poller, Poller.addFD_of_not_registered hunreg, destroyed, hnew]
  rfl

/-! ## The six exits -/

variable (regex routes)

theorem handleClientEvent_unknown {p : Pool W} {fd : Fd}
    (h : p.connectionPool.getClient fd = none) (events : UInt32) (recv : RecvResult)
    (send : SendResult) :
    p.handleClientEvent regex routes fd events recv send = (.ok (), p) := by
  simp [handleClientEvent, h]

theorem handleClientEvent_broken {p : Pool W} {fd : Fd} {client : Client} (h : p.Holds fd client)
    {events : UInt32} (he : Broken events) (recv : RecvResult) (send : SendResult) :
    p.handleClientEvent regex routes fd events recv send =
      (.ok (), (p.drop fd).record [.closed fd]) := by
  simp only [handleClientEvent, h.get]
  rw [if_pos he, closeClient_of_holds h]

theorem handleClientEvent_quiet {p : Pool W} {fd : Fd} {client : Client} (h : p.Holds fd client)
    {events : UInt32} (hb : ¬ Broken events) (hr : events &&& PollerEvent.READ = 0)
    (recv : RecvResult) (send : SendResult) :
    p.handleClientEvent regex routes fd events recv send = (.ok (), p) := by
  simp only [handleClientEvent, h.get]
  rw [if_neg hb, if_neg (not_not_intro hr)]

theorem handleClientEvent_eof {p : Pool W} {fd : Fd} {client : Client} (h : p.Holds fd client)
    {events : UInt32} (he : Readable events) {recv : RecvResult}
    (hrecv : recv = .closed ∨ recv = .failed) (send : SendResult) :
    p.handleClientEvent regex routes fd events recv send =
      (.ok (), (p.drop fd).record [.closed fd]) := by
  simp only [handleClientEvent, h.get]
  rw [if_neg he.1, if_pos he.2]
  obtain rfl | rfl := hrecv
  · rw [if_pos (by decide)]
    simp only [Client.readRequest, store_self h, record_nil]
    exact closeClient_of_holds h
  · rw [if_pos (by decide)]
    simp only [Client.readRequest, store_self h, record_nil]
    exact closeClient_of_holds h

/-- A chunk has at least one byte. -/
theorem count_received_pos (chunk : Chunk) : ¬ (RecvResult.received chunk).count ≤ 0 := by
  have hpos := List.length_pos_iff.mpr chunk.ne_nil
  simp only [RecvResult.count]
  omega

theorem handleClientEvent_wait {p : Pool W} {fd : Fd} {client : Client} (h : p.Holds fd client)
    {events : UInt32} (he : Readable events) {chunk : Chunk}
    (hready : requestReady (client.requestBuffer ++ chunk.bytes) = false) (send : SendResult) :
    p.handleClientEvent regex routes fd events (.received chunk) send =
      (.ok (), (p.store fd (client.appendRequest chunk.bytes)).record
        [.received fd chunk.bytes]) := by
  simp only [handleClientEvent, h.get]
  rw [if_neg he.1, if_pos he.2, if_neg (count_received_pos chunk)]
  simp only [Client.readRequest, Client.isRequestReady, Client.appendRequest_requestBuffer, hready,
    Bool.false_eq_true, if_false]

/-- The connection is closed behind every answer. -/
theorem serve_of_holds {p : Pool W} {fd : Fd} {client : Client} (h : p.Holds fd client)
    {raw : Bytes} (hne : raw ≠ []) {w' : W} {calls : List (Call W)}
    (hproc : processRequest regex routes (client.setState .processing) p.world =
      (.ok ((client.setState .processing).setResponse raw), w', calls)) (send : SendResult) :
    p.serve regex routes fd client send =
      (.ok (), ((p.drop fd).setWorld w').record
        (servedEvents fd client.requestBuffer calls raw (send.taken raw))) := by
  obtain ⟨client', hfd, hwrite⟩ :=
    writeResponse_taken (show ((client.setState .processing).setResponse raw).responseBuffer ≠ []
      from hne) send
  have hown : client'.fd = fd := hfd.trans h.owns
  simp only [serve, record_world, hproc, hwrite, ite_self]
  refine (closeClient_of_holds ((holds_store ?_ hown).record _)).trans ?_
  · exact h.registered
  · simp [servedEvents]

/-- The request is complete: it is processed, answered and closed. -/
theorem handleClientEvent_serve {p : Pool W} {fd : Fd} {client : Client} (h : p.Holds fd client)
    {events : UInt32} (he : Readable events) {chunk : Chunk}
    (hready : requestReady (client.requestBuffer ++ chunk.bytes) = true) (send : SendResult) :
    ∃ raw w' calls, raw ≠ [] ∧
      processRequest regex routes ((client.appendRequest chunk.bytes).setState .processing)
          p.world =
        (.ok (((client.appendRequest chunk.bytes).setState .processing).setResponse raw), w',
          calls) ∧
      p.handleClientEvent regex routes fd events (.received chunk) send =
        (.ok (), ((p.drop fd).setWorld w').record
          (.received fd chunk.bytes ::
            servedEvents fd (client.requestBuffer ++ chunk.bytes) calls raw (send.taken raw))) := by
  obtain ⟨raw, w', calls, hne, hproc⟩ := processRequest_returns regex routes
    ((client.appendRequest chunk.bytes).setState .processing) p.world
  refine ⟨raw, w', calls, hne, hproc, ?_⟩
  have hstored : (p.store fd (client.appendRequest chunk.bytes)).Holds fd _ :=
    holds_store h.registered h.owns
  simp only [handleClientEvent, h.get]
  rw [if_neg he.1, if_pos he.2, if_neg (count_received_pos chunk)]
  simp only [Client.readRequest, Client.isRequestReady, Client.appendRequest_requestBuffer, hready,
    if_true]
  rw [serve_of_holds regex routes (hstored.record [.received fd chunk.bytes]) hne hproc send]
  simp

/-! ## All exits together -/

/-- The event is a read that completes the request of the connection. -/
structure Completes (p : Pool W) (fd : Fd) (events : UInt32) (recv : RecvResult) (client : Client)
    (chunk : Chunk) : Prop where
  held : p.Holds fd client
  readable : Readable events
  received : recv = .received chunk
  ready : requestReady (client.requestBuffer ++ chunk.bytes) = true

/-- A call has one client and one chunk. -/
theorem Completes.unique {p : Pool W} {fd : Fd} {events : UInt32} {recv : RecvResult}
    {client client' : Client} {chunk chunk' : Chunk} (h : p.Completes fd events recv client chunk)
    (h' : p.Completes fd events recv client' chunk') : client = client' ∧ chunk = chunk' :=
  ⟨Option.some.inj (h.held.get.symm.trans h'.held.get),
    RecvResult.received.inj (h.received.symm.trans h'.received)⟩

/-- The states an event for `fd` can leave behind, and when it leaves them. -/
inductive Exit (p : Pool W) (fd : Fd) (events : UInt32) (recv : RecvResult) (send : SendResult) :
    Pool W → Prop where
  | unchanged :
      (∀ client chunk, ¬ p.Completes fd events recv client chunk) →
      Exit p fd events recv send p
  | closed {client : Client} :
      (∀ client chunk, ¬ p.Completes fd events recv client chunk) →
      p.Holds fd client →
      Exit p fd events recv send ((p.drop fd).record [.closed fd])
  | waiting {client : Client} {chunk : Chunk} :
      p.Holds fd client →
      recv = .received chunk →
      requestReady (client.requestBuffer ++ chunk.bytes) = false →
      Exit p fd events recv send ((p.store fd (client.appendRequest chunk.bytes)).record
        [.received fd chunk.bytes])
  | served {client : Client} {chunk : Chunk} {raw : Bytes} {w' : W} {calls : List (Call W)} :
      p.Completes fd events recv client chunk →
      raw ≠ [] →
      processRequest regex routes ((client.appendRequest chunk.bytes).setState .processing)
          p.world =
        (.ok (((client.appendRequest chunk.bytes).setState .processing).setResponse raw), w',
          calls) →
      Exit p fd events recv send (((p.drop fd).setWorld w').record
        (.received fd chunk.bytes ::
          servedEvents fd (client.requestBuffer ++ chunk.bytes) calls raw (send.taken raw)))

/-- `handle_client_event` returns, through one of its exits. -/
theorem handleClientEvent_cases {p : Pool W} {fd : Fd}
    (hheld : ∀ client, p.connectionPool.getClient fd = some client → p.Holds fd client)
    (events : UInt32) (recv : RecvResult) (send : SendResult) :
    ∃ p', p.handleClientEvent regex routes fd events recv send = (.ok (), p') ∧
      Exit regex routes p fd events recv send p' := by
  cases hget : p.connectionPool.getClient fd with
  | none =>
      refine ⟨p, handleClientEvent_unknown regex routes hget events recv send, .unchanged ?_⟩
      intro client chunk h
      rw [h.held.get] at hget
      cases hget
  | some client =>
      have h : p.Holds fd client := hheld client hget
      by_cases hbroken : Broken events
      · exact ⟨_, handleClientEvent_broken regex routes h hbroken recv send,
          .closed (fun _ _ hc => hc.readable.1 hbroken) h⟩
      · by_cases hread : events &&& PollerEvent.READ = 0
        · exact ⟨p, handleClientEvent_quiet regex routes h hbroken hread recv send,
            .unchanged fun _ _ hc => hc.readable.2 hread⟩
        · have hreadable : Readable events := ⟨hbroken, hread⟩
          cases recv with
          | closed =>
              exact ⟨_, handleClientEvent_eof regex routes h hreadable (.inl rfl) send,
                .closed (fun _ _ hc => nomatch hc.received) h⟩
          | failed =>
              exact ⟨_, handleClientEvent_eof regex routes h hreadable (.inr rfl) send,
                .closed (fun _ _ hc => nomatch hc.received) h⟩
          | received chunk =>
              cases hready : requestReady (client.requestBuffer ++ chunk.bytes) with
              | false =>
                  exact ⟨_, handleClientEvent_wait regex routes h hreadable hready send,
                    .waiting h rfl hready⟩
              | true =>
                  obtain ⟨raw, w', calls, hne, hproc, heq⟩ :=
                    handleClientEvent_serve regex routes h hreadable hready send
                  exact ⟨_, heq, .served ⟨h, hreadable, rfl, hready⟩ hne hproc⟩

variable {regex routes} in
/-- An event registers and unregisters no other descriptor. -/
theorem Exit.registered_of_ne {p p' : Pool W} {fd fd' : Fd} {events : UInt32} {recv : RecvResult}
    {send : SendResult} (h : Exit regex routes p fd events recv send p') (hne : fd' ≠ fd) :
    p'.poller.Registered fd' ↔ p.poller.Registered fd' := by
  cases h with
  | unchanged _ => exact Iff.rfl
  | closed _ _ => exact Poller.registered_unregister_of_ne hne
  | waiting _ _ _ => exact Iff.rfl
  | served _ _ _ => exact Poller.registered_unregister_of_ne hne

end Pool

end Fion.Network
