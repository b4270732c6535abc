import Fion.Network.Exchange
import Fion.Network.Outcome

/-!
# The life of a connection

What can be seen of a descriptor follows a protocol (`Life`).  It is added, data arrives,
and either the connection is closed, or the data completes a request.  Then this request is
processed, with everything that arrived since the descriptor was added; the user code runs,
the response is prepared and offered to the socket once, and the connection is closed.
Only behind that can the same number be added again.

Every run of a server keeps to it (`connections_live`), and the tables of the pools show
where in it each descriptor is.
-/

namespace Fion.Network

open Cpp (Bytes ascii)
open Machine (AlwaysStep)

variable {W : Type}

/-- What is seen of a descriptor up to some point, and what has arrived by then on the
connection that is open under it. -/
inductive Life (regex : RegexEngine) (routes : List (Route W)) (fd : Fd) :
    List (Event W) → Option Bytes → Prop where
  | unused :
      Life regex routes fd [] none
  | added {events : List (Event W)} :
      Life regex routes fd events none →
      Life regex routes fd (events ++ [.added fd]) (some [])
  | waiting {events : List (Event W)} {request : Bytes} (chunk : Chunk) :
      Life regex routes fd events (some request) →
      requestReady (request ++ chunk.bytes) = false →
      Life regex routes fd (events ++ [.received fd chunk.bytes]) (some (request ++ chunk.bytes))
  | closed {events : List (Event W)} {request : Bytes} :
      Life regex routes fd events (some request) →
      Life regex routes fd (events ++ [.closed fd]) none
  | served {events : List (Event W)} {request : Bytes} (chunk : Chunk) (send : SendResult)
      {w w' : W} {calls : List (Call W)} {client : Client} :
      Life regex routes fd events (some request) →
      requestReady (request ++ chunk.bytes) = true →
      processRequest regex routes
        { fd := fd, requestBuffer := request ++ chunk.bytes, state := .processing } w =
          (.ok client, w', calls) →
      Life regex routes fd
        (events ++ .received fd chunk.bytes :: servedEvents fd (request ++ chunk.bytes) calls
          client.responseBuffer (send.taken client.responseBuffer)) none

variable {regex : RegexEngine} {routes : List (Route W)}

namespace Pool

/-- What has arrived on the connection under a descriptor, if there is one. -/
def request (p : Pool W) (fd : Fd) : Option Bytes :=
  (p.connectionPool.getClient fd).map Client.requestBuffer

/-- The pool shows every descriptor where it is in its life. -/
def Lives (regex : RegexEngine) (routes : List (Route W)) (p : Pool W) : Prop :=
  ∀ fd, Life regex routes fd (seen p.log fd) (p.request fd)

theorem lives_start (w : W) : Lives regex routes ({ world := w } : Pool W) := fun _ => .unused

/-- A new connection begins a new part of the life of its descriptor. -/
theorem lives_enroll {p : Pool W} (h : p.Lives regex routes) {fd : Fd}
    (hnew : p.connectionPool.getClient fd = none) : (p.enroll fd).Lives regex routes := by
  intro fd'
  by_cases hfd : fd' = fd
  · subst hfd
    have hseen : seen (p.enroll fd').log fd' = seen p.log fd' ++ [.added fd'] :=
      seen_append_of_fd (by simp [Event.fd]) p.log
    have hrequest : (p.enroll fd').request fd' = some [] := by simp [request, enroll]
    have hlife := h fd'
    rw [request, hnew, Option.map_none] at hlife
    rw [hseen, hrequest]
    exact .added hlife
  · have hseen : seen (p.enroll fd).log fd' = seen p.log fd' :=
      seen_append_of_ne (by simpa [Event.fd] using Ne.symm hfd) p.log
    have hrequest : (p.enroll fd).request fd' = p.request fd' := by
      rw [request, request, enroll, ConnectionPool.getClient_put_of_ne hfd]
    rw [hseen, hrequest]
    exact h fd'

/-- The client object of a connection that is reading. -/
theorem Reading.eq_mk {p : Pool W} {fd : Fd} {client : Client} (h : p.Reading fd client) :
    client = { fd := fd, requestBuffer := client.requestBuffer } := by
  obtain ⟨fd', requestBuffer, responseBuffer, state⟩ := client
  obtain rfl := h.owns
  obtain rfl := h.response
  obtain rfl := h.state
  rfl

/-- An event for a connection takes it one step further. -/
theorem life_outcome {p : Pool W} {fd : Fd} {client : Client} (hreading : p.Reading fd client)
    {events : List (Event W)} (h : Life regex routes fd events (some client.requestBuffer))
    (w : W) (mask : UInt32) (recv : RecvResult) (send : SendResult) :
    Life regex routes fd (events ++ (outcome regex routes fd client w mask recv send).events)
      ((outcome regex routes fd client w mask recv send).client.map Client.requestBuffer) := by
  by_cases hbroken : Broken mask
  · rw [outcome_of_broken hbroken]
    exact .closed h
  by_cases hread : mask &&& PollerEvent.READ = 0
  · rw [outcome_of_quiet hbroken hread]
    simpa using h
  cases recv with
  | closed =>
      rw [outcome_of_eof ⟨hbroken, hread⟩ (.inl rfl)]
      exact .closed h
  | failed =>
      rw [outcome_of_eof ⟨hbroken, hread⟩ (.inr rfl)]
      exact .closed h
  | received chunk =>
      cases hready : requestReady (client.requestBuffer ++ chunk.bytes) with
      | false =>
          rw [outcome_of_waiting ⟨hbroken, hread⟩ hready]
          exact .waiting chunk h hready
      | true =>
          have hprocessing : (client.appendRequest chunk.bytes).setState .processing =
              { fd := fd, requestBuffer := client.requestBuffer ++ chunk.bytes,
                state := .processing } := by
            rw [hreading.eq_mk]
            rfl
          obtain ⟨client', w', calls, hproc, houtcome⟩ :=
            outcome_of_processed regex routes fd w ⟨hbroken, hread⟩ send hready
          rw [houtcome]
          rw [hprocessing] at hproc
          exact .served chunk send h hready hproc

/-- So does every call of the pool. -/
theorem lives_next {p : Pool W} (h : p.Consistent) (hlives : p.Lives regex routes)
    {input : Input} (hadm : p.Admits input) : (p.next regex routes input).Lives regex routes := by
  cases input with
  | addClient fd =>
      have hnext : p.next regex routes (.addClient fd) = p.enroll fd :=
        congrArg Prod.snd (addClient_of_new hadm.1 hadm.2 (h.not_registered hadm.2))
      rw [hnext]
      exact lives_enroll hlives hadm.2
  | event fd mask recv send =>
      rw [next_event regex routes h]
      cases hget : p.connectionPool.getClient fd with
      | none => exact hlives
      | some client =>
          intro fd'
          have hreading := (h fd).reading client hget
          by_cases hfd : fd' = fd
          · subst hfd
            have hlife := hlives fd'
            rw [request, hget, Option.map_some] at hlife
            simp only [settle_log, request, getClient_settle_self]
            rw [seen_append_of_fd fun e he => (fd_of_mem_outcome he).1]
            exact life_outcome hreading hlife p.world mask recv send
          · simp only [settle_log, request, getClient_settle_of_ne _ _ _ hfd]
            rw [seen_append_of_ne fun e he heq => hfd (heq.symm.trans (fd_of_mem_outcome he).1)]
            exact hlives fd'

/-- And every run. -/
theorem lives_run (w : W) {as : List Input}
    (has : AlwaysStep (next regex routes) Admits ({ world := w } : Pool W) as) :
    (as.foldl (next regex routes) { world := w }).Lives regex routes := by
  have hall : Machine.Always (next regex routes)
      (fun p => p.Consistent ∧ p.Lives regex routes) ({ world := w } : Pool W) as := by
    refine Machine.always_of_ok (fun p input hp hinput _ => ?_) ?_ has has
    · exact ⟨consistent_next regex routes hp.1 hinput, lives_next hp.1 hp.2 hinput⟩
    · exact ⟨consistent_start w, lives_start w⟩
  exact hall.last.2

end Pool

namespace RunningServer

variable {n : Nat}

/-- In every run of a server and its threads what is seen of a descriptor is a life: it is
added, data arrives, its request is processed when it is complete, with everything that
arrived and nothing else, and answered once, and it is closed before it is added again.  A
descriptor that some pool holds is open there, with the request that the pool shows, and one
that no pool holds has been closed. -/
theorem connections_live (hn : 0 < n) (w : W) {steps : List (ServerStep n)}
    (hsteps : AlwaysStep (next regex routes) Admits (start w : RunningServer W n) steps)
    (fd : Fd) :
    let s := steps.foldl (next regex routes) (start w)
    (∀ i client, s.fleet.entry i fd = some client →
      Life regex routes fd (seen s.fleet.log fd) (some client.requestBuffer)) ∧
    ((∀ i, s.fleet.entry i fd = none) → Life regex routes fd (seen s.fleet.log fd) none) := by
  intro s
  obtain ⟨hcalls, -, hfleet⟩ := shows_run hn w hsteps
  have hlife := Pool.lives_run w hcalls fd
  rw [← hfleet.log] at hlife
  refine ⟨fun i client hentry => ?_, fun hnone => ?_⟩
  · rw [Pool.request, hfleet.held i fd client hentry, Option.map_some] at hlife
    exact hlife
  · rw [Pool.request] at hlife
    cases hget : (Pool.connectionPool _).getClient fd with
    | none =>
        rw [hget] at hlife
        exact hlife
    | some client =>
        obtain ⟨i, hi⟩ := hfleet.found fd client hget
        rw [hnone i] at hi
        cases hi

/-- A connection whose request is processed and answered. -/
theorem plainRun_live :
    Life (fun _ => .ok fun _ => none) [] 3
        (seen (plainRun.foldl (next (fun _ => .ok fun _ => none) []) (start ())).fleet.log 3)
        none ∧
      .processed 3 plainMessage.encode ∈
        seen (plainRun.foldl (next (fun _ => .ok fun _ => none) []) (start ())).fleet.log 3 :=
  ⟨(connections_live (Nat.succ_pos 2) () plainRun_admitted 3).2 (by decide),
    .tail _ (.tail _ (.tail _ (.head _)))⟩

end RunningServer

end Fion.Network
