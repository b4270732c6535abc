import Fion.Network.PoolInvariant

/-!
# Responses on the wire

`handle_client_event` calls `send` once for a response and then removes the
connection, and `writeResponse` clears the buffer as soon as one byte was sent.
So what was sent, followed by what is still buffered, is the prepared response
(`Untruncated`) for as long as that one `send` takes all of it (`SendsAll`), and
no longer: `always_untruncated_iff` says so for every run.
-/

namespace Fion.Network

open Cpp (Bytes ascii)

variable {W : Type}

/-- The bytes the socket took. -/
def Event.sentData : Event W → Bytes
  | .sent _ data => data
  | _ => []

/-- The response that was prepared. -/
def Event.preparedData : Event W → Bytes
  | .prepared _ response => response
  | _ => []

/-- The bytes sent on a connection since it was added. -/
def sent (log : List (Event W)) (fd : Fd) : Bytes := (history log fd).flatMap Event.sentData

/-- The response prepared on a connection since it was added. -/
def prepared (log : List (Event W)) (fd : Fd) : Bytes :=
  (history log fd).flatMap Event.preparedData

/-- What is read off the events of a served request, when user code shows none of
it. -/
theorem flatMap_served (f : Event W → Bytes) {fd : Fd} (hcalled : ∀ call, f (.called fd call) = [])
    (chunk requestData : Bytes) (calls : List (Call W)) (response taken : Bytes) :
    (Event.received fd chunk :: servedEvents fd requestData calls response taken).flatMap f =
      f (.received fd chunk) ++ f (.processed fd requestData) ++ f (.prepared fd response) ++
        f (.sent fd taken) ++ f (.closed fd) := by
  have hcalls : (calls.map (Event.called fd)).flatMap f = [] := by
    rw [List.flatMap_eq_nil_iff]
    intro e he
    obtain ⟨call, -, rfl⟩ := List.mem_map.mp he
    exact hcalled call
  simp [servedEvents, hcalls]

/-- One of them is data that is sent. -/
theorem flatMap_sentData_served (fd : Fd) (chunk requestData : Bytes) (calls : List (Call W))
    (response taken : Bytes) :
    (Event.received fd chunk :: servedEvents fd requestData calls response taken).flatMap
      Event.sentData = taken := by
  rw [flatMap_served Event.sentData fun _ => rfl]
  simp [Event.sentData]

/-- And one is a prepared response. -/
theorem flatMap_preparedData_served (fd : Fd) (chunk requestData : Bytes) (calls : List (Call W))
    (response taken : Bytes) :
    (Event.received fd chunk :: servedEvents fd requestData calls response taken).flatMap
      Event.preparedData = response := by
  rw [flatMap_served Event.preparedData fun _ => rfl]
  simp [Event.preparedData]

/-- An event that neither sends nor prepares anything leaves nothing unsent. -/
theorem sent_eq_prepared_append {log : List (Event W)} {fd : Fd} {e : Event W}
    (he : e.sentData = [] ∧ e.preparedData = []) (h : sent log fd = prepared log fd) :
    sent (log ++ [e]) fd = prepared (log ++ [e]) fd := by
  by_cases hfd : e.fd = fd
  · subst hfd
    cases hadded : e.isAdded with
    | true =>
        cases e with
        | added fd => simp [sent, prepared, Event.fd]
        | received | processed | called | prepared | sent | closed => cases hadded
    | false =>
        have hhistory : history (log ++ [e]) e.fd = history log e.fd ++ [e] :=
          history_append_of_fd (by simpa using hadded) log
        simp only [sent, prepared, hhistory, List.flatMap_append, List.flatMap_singleton, he.1,
          he.2, List.append_nil]
        exact h
  · have hhistory : history (log ++ [e]) fd = history log fd :=
      history_append_of_ne (by simpa using hfd) log
    rw [sent, prepared, hhistory]
    exact h

/-- A response is taken as a whole exactly when at least its length is accepted. -/
theorem taken_eq_self_iff {send : SendResult} {response : Bytes} (hne : response ≠ []) :
    send.taken response = response ↔ ∃ count, send = .accepted count ∧ response.length ≤ count := by
  cases send with
  | accepted count =>
      rw [SendResult.taken, List.take_eq_self_iff]
      constructor
      · exact fun hle => ⟨count, rfl, hle⟩
      · rintro ⟨count', heq, hle⟩
        obtain rfl := SendResult.accepted.inj heq
        exact hle
  | wouldBlock => simpa [SendResult.taken] using hne.symm
  | failed => simpa [SendResult.taken] using hne.symm

namespace Pool

/-- What is still to be sent on a connection. -/
def pending (p : Pool W) (fd : Fd) : Bytes :=
  match p.connectionPool.getClient fd with
  | some client => client.responseBuffer
  | none => []

/-- What was sent on a connection, followed by what is still to be sent, is the
response that was prepared. -/
def UntruncatedAt (p : Pool W) (fd : Fd) : Prop :=
  sent p.log fd ++ p.pending fd = prepared p.log fd

instance (p : Pool W) (fd : Fd) : Decidable (p.UntruncatedAt fd) :=
  inferInstanceAs (Decidable (sent p.log fd ++ p.pending fd = prepared p.log fd))

/-- No response was cut short. -/
def Untruncated (p : Pool W) : Prop := ∀ fd, p.UntruncatedAt fd

/-- The call reports no hard error of the socket. -/
def NoHardError : Input → Prop
  | .addClient _ => True
  | .event _ _ _ send => send ≠ .failed

/-- If the call completes a request, the one `send` takes the whole response. -/
def SendsAll (regex : RegexEngine) (routes : List (Route W)) (p : Pool W) : Input → Prop
  | .addClient _ => True
  | .event fd events recv send =>
      ∀ client chunk client' w' calls, p.Completes fd events recv client chunk →
        processRequest regex routes ((client.appendRequest chunk.bytes).setState .processing)
          p.world = (.ok client', w', calls) →
        ∃ count, send = .accepted count ∧ client'.responseBuffer.length ≤ count

/-- Nothing was prepared or sent on a connection that is reading. -/
theorem Reading.sent_prepared {p : Pool W} {fd : Fd} {client : Client} (h : p.Reading fd client) :
    sent p.log fd = [] ∧ prepared p.log fd = [] := by
  refine ⟨List.flatMap_eq_nil_iff.mpr fun e he => ?_, List.flatMap_eq_nil_iff.mpr fun e he => ?_⟩
  · obtain ⟨data, rfl⟩ := h.onlyReceived e he
    rfl
  · obtain ⟨data, rfl⟩ := h.onlyReceived e he
    rfl

/-- Between two calls nothing is to be sent. -/
theorem Consistent.pending_eq_nil {p : Pool W} (h : p.Consistent) (fd : Fd) :
    p.pending fd = [] := by
  unfold pending
  cases hget : p.connectionPool.getClient fd with
  | none => rfl
  | some client => exact ((h fd).reading client hget).response

/-- So no response was cut short when everything prepared was sent. -/
theorem Consistent.untruncated_iff {p : Pool W} (h : p.Consistent) :
    p.Untruncated ↔ ∀ fd, sent p.log fd = prepared p.log fd := by
  simp only [Untruncated, UntruncatedAt, h.pending_eq_nil, List.append_nil]

variable {regex : RegexEngine} {routes : List (Route W)}

/-- Serving a connection cuts no response short exactly when its `send` takes all
of it. -/
theorem untruncated_served_iff {p : Pool W} (h : p.Consistent) (hp : p.Untruncated) {fd : Fd}
    {client : Client} (hget : p.connectionPool.getClient fd = some client)
    (chunk requestData : Bytes) (calls : List (Call W)) {response : Bytes} (hne : response ≠ [])
    (send : SendResult) :
    (∀ fd', sent (p.log ++ .received fd chunk ::
        servedEvents fd requestData calls response (send.taken response)) fd' =
      prepared (p.log ++ .received fd chunk ::
        servedEvents fd requestData calls response (send.taken response)) fd') ↔
    ∃ count, send = .accepted count ∧ response.length ≤ count := by
  obtain ⟨hsent, hprepared⟩ := ((h fd).reading client hget).sent_prepared
  have hserved : sent (p.log ++ .received fd chunk ::
        servedEvents fd requestData calls response (send.taken response)) fd =
      send.taken response ∧
      prepared (p.log ++ .received fd chunk ::
        servedEvents fd requestData calls response (send.taken response)) fd = response := by
    constructor
    · rw [sent, history_append_of_fd (fun e he => fd_of_mem_served he), List.flatMap_append,
        flatMap_sentData_served, ← sent, hsent, List.nil_append]
    · rw [prepared, history_append_of_fd (fun e he => fd_of_mem_served he), List.flatMap_append,
        flatMap_preparedData_served, ← prepared, hprepared, List.nil_append]
  constructor
  · intro hall
    have heq := hall fd
    rw [hserved.1, hserved.2] at heq
    exact (taken_eq_self_iff hne).mp heq
  · intro hsend fd'
    by_cases hfd : fd' = fd
    · subst hfd
      rw [hserved.1, hserved.2]
      exact (taken_eq_self_iff hne).mpr hsend
    · have hothers : ∀ e ∈ Event.received fd chunk ::
          servedEvents fd requestData calls response (send.taken response), e.fd ≠ fd' :=
        fun e he => by rw [(fd_of_mem_served he).1]; exact Ne.symm hfd
      rw [sent, prepared, history_append_of_ne hothers]
      exact h.untruncated_iff.mp hp fd'

/-- A call cuts no response short exactly when its `send` takes all of it. -/
theorem untruncated_next_iff {p : Pool W} (h : p.Consistent) {input : Input}
    (hadm : p.Admits input) (hp : p.Untruncated) :
    (p.next regex routes input).Untruncated ↔ p.SendsAll regex routes input := by
  have hnext := consistent_next regex routes h hadm
  have hall := h.untruncated_iff.mp hp
  cases input with
  | addClient fd =>
      have heq := addClient_of_new hadm.1 hadm.2 (h.not_registered hadm.2)
      simp only [next, heq, SendsAll, iff_true] at hnext ⊢
      rw [hnext.untruncated_iff]
      exact fun fd' => sent_eq_prepared_append ⟨rfl, rfl⟩ (hall fd')
  | event fd events recv send =>
      obtain ⟨p', heq, hexit⟩ := handleClientEvent_cases regex routes
        (fun client (hget : p.connectionPool.getClient fd = some client) => h.holds hget)
        events recv send
      simp only [next, heq] at hnext ⊢
      cases hexit with
      | unchanged hnone =>
          exact ⟨fun _ client chunk _ _ _ hc => absurd hc (hnone client chunk), fun _ => hp⟩
      | closed hnone _ =>
          refine ⟨fun _ client chunk _ _ _ hc => absurd hc (hnone client chunk), fun _ => ?_⟩
          rw [hnext.untruncated_iff]
          exact fun fd' => sent_eq_prepared_append ⟨rfl, rfl⟩ (hall fd')
      | @waiting client chunk hheld hrecv hready =>
          refine ⟨fun _ client' chunk' _ _ _ hc => ?_, fun _ => ?_⟩
          · obtain rfl : client = client' := Option.some.inj (hheld.get.symm.trans hc.held.get)
            obtain rfl : chunk = chunk' := RecvResult.received.inj (hrecv.symm.trans hc.received)
            rw [hc.ready] at hready
            cases hready
          · rw [hnext.untruncated_iff]
            exact fun fd' => sent_eq_prepared_append ⟨rfl, rfl⟩ (hall fd')
      | @served client chunk raw w' calls hcompletes hne hproc =>
          rw [hnext.untruncated_iff]
          refine (untruncated_served_iff h hp hcompletes.held.get _ _ _ hne send).trans ?_
          constructor
          · intro hsend client' chunk' client'' w'' calls' hc hproc'
            obtain ⟨rfl, rfl⟩ := hcompletes.unique hc
            rw [hproc] at hproc'
            obtain ⟨rfl, -, -⟩ := by simpa using hproc'
            exact hsend
          · intro hsend
            exact hsend client chunk _ w' calls hcompletes hproc

/-- In a run without hard errors no response is cut short, in any state between
two calls, exactly when every `send` of the run takes the whole response it is
offered. -/
theorem always_untruncated_iff (w : W) {inputs : List Input}
    (hadm : Machine.AlwaysStep (next regex routes) (fun p input => p.Admits input ∧
      NoHardError input) { world := w } inputs) :
    Machine.Always (next regex routes) Untruncated { world := w } inputs ↔
      Machine.AlwaysStep (next regex routes) (SendsAll regex routes) { world := w } inputs := by
  refine Machine.always_iff (fun p input (hp : p.Consistent) hinput =>
    consistent_next regex routes hp hinput.1) ?_ (consistent_start w) ?_ hadm
  · exact fun p input hp hinput huntruncated => untruncated_next_iff hp hinput.1 huntruncated
  · exact fun fd => rfl

/-- A new connection, and a complete request that is answered with status 404. -/
def answered (send : SendResult) : List Input :=
  [.addClient 3, .event 3 PollerEvent.READ
    (.received ⟨ascii "GET / HTTP/1.1\r\n\r\n", by decide, by decide⟩) send]

/-- The whole answer is 54 bytes long. -/
theorem answered_untruncated :
    Machine.Always (next (fun _ => .ok fun _ => none) []) Untruncated { world := () }
      (answered (.accepted 54)) := by
  refine (always_untruncated_iff () ?_).mpr ?_
  · exact ⟨⟨⟨by decide, rfl⟩, trivial⟩, ⟨trivial, SendResult.noConfusion⟩, trivial⟩
  · refine ⟨trivial, fun client chunk client' w' calls hc hproc => ⟨54, rfl, ?_⟩, trivial⟩
    obtain rfl : { fd := 3 } = client := Option.some.inj hc.held.get
    obtain rfl := RecvResult.received.inj hc.received
    have hlen : ((processRequest (fun _ => .ok fun _ => none) []
        (({ fd := 3 } : Client).appendRequest (ascii "GET / HTTP/1.1\r\n\r\n") |>.setState
          .processing) ()).1.map (·.responseBuffer.length)).toOption = some 54 := by decide
    have hresponse : client'.responseBuffer.length = 54 :=
      Option.some.inj ((congrArg (fun r => (r.1.map (·.responseBuffer.length)).toOption)
        hproc).symm.trans hlen)
    exact Nat.le_of_eq hresponse

/-- A `send` that takes one byte of the answer. -/
theorem answered_truncated :
    ¬ Machine.Always (next (fun _ => .ok fun _ => none) []) Untruncated { world := () }
      (answered (.accepted 1)) := by
  intro h
  have hlast := h.2.2 3
  exact absurd hlast (by decide)

end Pool

end Fion.Network
