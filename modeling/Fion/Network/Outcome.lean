import Fion.Network.PoolInvariant

/-!
# What an event means for one connection

An event for a connection that a pool holds changes nothing of the other connections, and
what it changes depends on the connection's client object and on the state of the user
code alone.  So there is a function of these two that says what is left of the client,
what state the user code leaves and what is seen (`outcome`), and `handle_client_event`
puts that into the pool (`handleClientEvent_eq`).

A connection can be closed in two ways.  It is answered first, or an event reports an error
or a hangup or finds nothing more to read (`closesAnswered_settle_iff`).
-/

namespace Fion.Network

open Cpp (Bytes Exn)

variable {W : Type}

/-- What an event for a connection leaves behind: the client, if it stays, the state of
the user code, and what was seen. -/
structure Outcome (W : Type) where
  client : Option Client
  world : W
  events : List (Event W)

variable (regex : RegexEngine) (routes : List (Route W))

/-- The bytes that `process_request` leaves in the response buffer.  It returns for every
client. -/
def preparedBytes : Except Exn Client → Bytes
  | .ok client => client.responseBuffer
  | .error _ => []

/-- A connection whose request is complete is answered and closed. -/
def answered (fd : Fd) (client : Client) (w : W) (send : SendResult) : Outcome W :=
  match processRequest regex routes (client.setState .processing) w with
  | (result, w', calls) =>
      ⟨none, w', servedEvents fd client.requestBuffer calls (preparedBytes result)
        (send.taken (preparedBytes result))⟩

/-- What an event makes of a connection. -/
def outcome (fd : Fd) (client : Client) (w : W) (events : UInt32) (recv : RecvResult)
    (send : SendResult) : Outcome W :=
  if Broken events then ⟨none, w, [.closed fd]⟩
  else if events &&& PollerEvent.READ = 0 then ⟨some client, w, []⟩
  else
    match recv with
    | .received chunk =>
        let client := client.appendRequest chunk.bytes
        if client.isRequestReady then
          let left := answered regex routes fd client w send
          { left with events := .received fd chunk.bytes :: left.events }
        else ⟨some client, w, [.received fd chunk.bytes]⟩
    | .closed | .failed => ⟨none, w, [.closed fd]⟩

/-- Data that completes it gets it processed, and the client object is destroyed. -/
theorem outcome_of_processed (fd : Fd) {client : Client} (w : W) {events : UInt32}
    (he : Readable events) {chunk : Chunk} (send : SendResult)
    (hready : requestReady (client.requestBuffer ++ chunk.bytes) = true) :
    ∃ client' w' calls,
      processRequest regex routes ((client.appendRequest chunk.bytes).setState .processing) w =
        (.ok client', w', calls) ∧
      outcome regex routes fd client w events (.received chunk) send =
        ⟨none, w', .received fd chunk.bytes :: servedEvents fd
          (client.requestBuffer ++ chunk.bytes) calls client'.responseBuffer
          (send.taken client'.responseBuffer)⟩ := by
  have hclient : (client.appendRequest chunk.bytes).isRequestReady = true := hready
  obtain ⟨raw, w', calls, -, hproc⟩ := processRequest_returns regex routes
    ((client.appendRequest chunk.bytes).setState .processing) w
  refine ⟨_, w', calls, hproc, ?_⟩
  rw [outcome, if_neg he.1, if_neg he.2]
  simp only [hclient, if_true, answered, hproc, preparedBytes, Client.setResponse_responseBuffer,
    Client.appendRequest_requestBuffer]

/-- So it is answered. -/
theorem outcome_of_ready (fd : Fd) {client : Client} (w : W) {events : UInt32}
    (he : Readable events) {chunk : Chunk} (send : SendResult)
    (hready : requestReady (client.requestBuffer ++ chunk.bytes) = true) :
    ∃ calls response w', outcome regex routes fd client w events (.received chunk) send =
      ⟨none, w', .received fd chunk.bytes :: servedEvents fd
        (client.requestBuffer ++ chunk.bytes) calls response (send.taken response)⟩ := by
  obtain ⟨client', w', calls, -, houtcome⟩ :=
    outcome_of_processed regex routes fd w he send hready
  exact ⟨calls, client'.responseBuffer, w', houtcome⟩

section Events

variable {regex routes} {fd : Fd} {client : Client} {w : W} {send : SendResult}

/-- An error or a hangup closes the connection. -/
theorem outcome_of_broken {events : UInt32} (h : Broken events) (recv : RecvResult) :
    outcome regex routes fd client w events recv send = ⟨none, w, [.closed fd]⟩ := by
  unfold outcome
  exact if_pos h

/-- Without anything to read nothing happens. -/
theorem outcome_of_quiet {events : UInt32} (hbroken : ¬ Broken events)
    (hread : events &&& PollerEvent.READ = 0) (recv : RecvResult) :
    outcome regex routes fd client w events recv send = ⟨some client, w, []⟩ := by
  unfold outcome
  rw [if_neg hbroken, if_pos hread]

/-- The end of the data closes the connection, and so does an error of `recv`. -/
theorem outcome_of_eof {events : UInt32} (he : Readable events) {recv : RecvResult}
    (h : recv = .closed ∨ recv = .failed) :
    outcome regex routes fd client w events recv send = ⟨none, w, [.closed fd]⟩ := by
  rcases h with rfl | rfl <;>
  · rw [outcome, if_neg he.1, if_neg he.2]

/-- Data that does not complete the request is kept. -/
theorem outcome_of_waiting {events : UInt32} (he : Readable events) {chunk : Chunk}
    (hready : requestReady (client.requestBuffer ++ chunk.bytes) = false) :
    outcome regex routes fd client w events (.received chunk) send =
      ⟨some (client.appendRequest chunk.bytes), w, [.received fd chunk.bytes]⟩ := by
  have hclient : (client.appendRequest chunk.bytes).isRequestReady = false := hready
  rw [outcome, if_neg he.1, if_neg he.2]
  simp only [hclient, Bool.false_eq_true, if_false]

/-- Everything that is seen is about the connection, and none of it adds one. -/
theorem fd_of_mem_outcome {events : UInt32} {recv : RecvResult} {e : Event W}
    (h : e ∈ (outcome regex routes fd client w events recv send).events) :
    e.fd = fd ∧ e.isAdded = false := by
  have hclosed : e ∈ [Event.closed (W := W) fd] → e.fd = fd ∧ e.isAdded = false := fun he => by
    rw [List.mem_singleton.mp he]
    exact ⟨rfl, rfl⟩
  unfold outcome at h
  split_ifs at h with hbroken hread
  · exact hclosed h
  · cases h
  · cases recv with
    | closed => exact hclosed h
    | failed => exact hclosed h
    | received chunk =>
        simp only at h
        split_ifs at h with hready
        · exact fd_of_mem_served h
        · rw [List.mem_singleton.mp h]
          exact ⟨rfl, rfl⟩

end Events

namespace Pool

/-- The pool with the outcome of an event for one of its connections. -/
def settle (p : Pool W) (fd : Fd) (o : Outcome W) : Pool W :=
  ((match o.client with
    | some client => p.store fd client
    | none => p.drop fd).setWorld o.world).record o.events

section Settle

variable (p : Pool W) (fd : Fd) (o : Outcome W)

@[simp] theorem settle_world : (p.settle fd o).world = o.world := rfl

@[simp] theorem settle_log : (p.settle fd o).log = p.log ++ o.events := by
  cases hclient : o.client <;> simp [settle, hclient, record, setWorld, store, drop]

@[simp] theorem getClient_settle_self :
    (p.settle fd o).connectionPool.getClient fd = o.client := by
  cases hclient : o.client <;> simp [settle, hclient, record, setWorld, store, drop]

theorem getClient_settle_of_ne {fd' : Fd} (h : fd' ≠ fd) :
    (p.settle fd o).connectionPool.getClient fd' = p.connectionPool.getClient fd' := by
  cases hclient : o.client with
  | none => simpa [settle, hclient, drop] using ConnectionPool.getClient_removeClient_of_ne h
  | some client => simpa [settle, hclient, store] using ConnectionPool.getClient_put_of_ne h client

theorem registered_settle_of_ne {fd' : Fd} (h : fd' ≠ fd) :
    (p.settle fd o).poller.Registered fd' ↔ p.poller.Registered fd' := by
  cases hclient : o.client with
  | none => simpa [settle, hclient, drop] using Poller.registered_unregister_of_ne h
  | some client => simp [settle, hclient, store]

end Settle

section History

variable (p : Pool W) (fd : Fd) (client : Client) (w : W) (events : UInt32) (recv : RecvResult)
  (send : SendResult)

/-- The outcome of an event extends the history of its connection. -/
theorem history_settle_self :
    history (p.settle fd (outcome regex routes fd client w events recv send)).log fd =
      history p.log fd ++ (outcome regex routes fd client w events recv send).events := by
  rw [settle_log]
  exact history_append_of_fd (fun e he => fd_of_mem_outcome he) _

/-- Other connections have the same history as before. -/
theorem history_settle_of_ne {fd' : Fd} (h : fd' ≠ fd) :
    history (p.settle fd (outcome regex routes fd client w events recv send)).log fd' =
      history p.log fd' := by
  rw [settle_log]
  refine history_append_of_ne (fun e he => ?_) _
  rw [(fd_of_mem_outcome he).1]
  exact Ne.symm h

end History

/-- An event for a connection of the pool leaves its outcome. -/
theorem handleClientEvent_eq {p : Pool W} {fd : Fd} {client : Client} (h : p.Holds fd client)
    (events : UInt32) (recv : RecvResult) (send : SendResult) :
    p.handleClientEvent regex routes fd events recv send =
      (.ok (), p.settle fd (outcome regex routes fd client p.world events recv send)) := by
  unfold outcome
  split_ifs with hbroken hread
  · exact handleClientEvent_broken regex routes h hbroken recv send
  · rw [handleClientEvent_quiet regex routes h hbroken hread]
    simp [settle, store_self h, record, setWorld]
  · have hreadable : Readable events := ⟨hbroken, hread⟩
    cases recv with
    | closed => exact handleClientEvent_eof regex routes h hreadable (.inl rfl) send
    | failed => exact handleClientEvent_eof regex routes h hreadable (.inr rfl) send
    | received chunk =>
        cases hready : requestReady (client.requestBuffer ++ chunk.bytes) with
        | false =>
            have hclient : (client.appendRequest chunk.bytes).isRequestReady = false := hready
            rw [handleClientEvent_wait regex routes h hreadable hready]
            simp [hclient, settle, store, record, setWorld]
        | true =>
            have hclient : (client.appendRequest chunk.bytes).isRequestReady = true := hready
            obtain ⟨raw, w', calls, -, hproc, heq⟩ :=
              handleClientEvent_serve regex routes h hreadable hready send
            rw [heq]
            simp [hclient, settle, answered, hproc, preparedBytes]

/-- Without the connection an event has no outcome. -/
theorem next_event {p : Pool W} (h : p.Consistent) (fd : Fd) (events : UInt32)
    (recv : RecvResult) (send : SendResult) :
    p.next regex routes (.event fd events recv send) =
      match p.connectionPool.getClient fd with
      | none => p
      | some client => p.settle fd (outcome regex routes fd client p.world events recv send) := by
  cases hget : p.connectionPool.getClient fd with
  | none => rw [next, handleClientEvent_unknown regex routes hget]
  | some client => rw [next, handleClientEvent_eq regex routes (h.holds hget)]

/-! ## Closed without an answer -/

/-- A connection that was closed was answered before. -/
def ClosesAnswered (log : List (Event W)) : Prop :=
  ∀ fd, .closed fd ∈ history log fd → ∃ request, .processed fd request ∈ history log fd

/-- What happens to one connection decides about that one only. -/
theorem ClosesAnswered.of_history {log log' : List (Event W)} (h : ClosesAnswered log) (fd : Fd)
    (hself : .closed fd ∈ history log' fd → ∃ request, .processed fd request ∈ history log' fd)
    (hothers : ∀ fd', fd' ≠ fd → history log' fd' = history log fd') : ClosesAnswered log' := by
  intro fd'
  by_cases hfd : fd' = fd
  · exact hfd ▸ hself
  · rw [hothers fd' hfd]
    exact h fd'

variable {regex routes}

theorem closesAnswered_enroll {p : Pool W} (h : ClosesAnswered p.log) (fd : Fd) :
    ClosesAnswered (p.enroll fd).log := by
  refine h.of_history fd (fun hmem => ?_) fun fd' hfd' => ?_
  · rw [enroll, history_added] at hmem
    exact absurd hmem List.not_mem_nil
  · exact history_append_of_ne (by simpa [Event.fd] using Ne.symm hfd') _

/-- An event closes no connection without an answer exactly when it reports no error and no
hangup and data is there if it says so. -/
theorem closesAnswered_settle_iff {p : Pool W} {fd : Fd} {client : Client}
    (hreading : p.Reading fd client) (h : ClosesAnswered p.log) (w : W) (events : UInt32)
    (recv : RecvResult) (send : SendResult) :
    ClosesAnswered (p.settle fd (outcome regex routes fd client w events recv send)).log ↔
      ¬ Broken events ∧ (events &&& PollerEvent.READ ≠ 0 → ∃ chunk, recv = .received chunk) := by
  have hself := history_settle_self regex routes p fd client w events recv send
  have hothers : ∀ fd', fd' ≠ fd → history (p.settle fd (outcome regex routes fd client w events
      recv send)).log fd' = history p.log fd' := fun fd' hfd' =>
    history_settle_of_ne regex routes p fd client w events recv send hfd'
  have honly : ∀ e ∈ history p.log fd, e ≠ .closed fd ∧ ∀ request, e ≠ .processed fd request := by
    intro e he
    obtain ⟨data, rfl⟩ := hreading.onlyReceived e he
    exact ⟨nofun, nofun⟩
  -- a close with nothing before it
  have hclosed : (outcome regex routes fd client w events recv send).events = [.closed fd] →
      ¬ ClosesAnswered (p.settle fd (outcome regex routes fd client w events recv send)).log := by
    intro hevents hanswered
    rw [hevents] at hself
    obtain ⟨request, hmem⟩ := hanswered fd (by rw [hself]; simp)
    rw [hself, List.mem_append] at hmem
    rcases hmem with hmem | hmem
    · exact (honly _ hmem).2 request rfl
    · cases List.mem_singleton.mp hmem
  have hkept : (Event.closed fd) ∉ (outcome regex routes fd client w events recv send).events →
      ClosesAnswered (p.settle fd (outcome regex routes fd client w events recv send)).log := by
    intro hnone
    refine h.of_history fd (fun hmem => ?_) hothers
    rw [hself, List.mem_append] at hmem
    exact absurd hmem (not_or.mpr ⟨fun hmem => (honly _ hmem).1 rfl, hnone⟩)
  by_cases hbroken : Broken events
  · refine iff_of_false (hclosed ?_) fun hok => hok.1 hbroken
    rw [outcome_of_broken hbroken]
  by_cases hread : events &&& PollerEvent.READ = 0
  · refine iff_of_true (hkept ?_) ⟨hbroken, fun hset => absurd hread hset⟩
    rw [outcome_of_quiet hbroken hread]
    exact List.not_mem_nil
  have hreadable : Readable events := ⟨hbroken, hread⟩
  cases recv with
  | closed =>
      refine iff_of_false (hclosed ?_) fun hok => nomatch hok.2 hread
      rw [outcome_of_eof hreadable (.inl rfl)]
  | failed =>
      refine iff_of_false (hclosed ?_) fun hok => nomatch hok.2 hread
      rw [outcome_of_eof hreadable (.inr rfl)]
  | received chunk =>
      refine iff_of_true ?_ ⟨hbroken, fun _ => ⟨chunk, rfl⟩⟩
      cases hready : requestReady (client.requestBuffer ++ chunk.bytes) with
      | false =>
          refine hkept ?_
          rw [outcome_of_waiting hreadable hready]
          simp
      | true =>
          obtain ⟨calls, response, w', hserved⟩ :=
            outcome_of_ready regex routes fd w hreadable send hready
          refine h.of_history fd (fun _ => ⟨client.requestBuffer ++ chunk.bytes, ?_⟩) hothers
          rw [hself, hserved]
          simp [servedEvents]

end Pool

end Fion.Network
