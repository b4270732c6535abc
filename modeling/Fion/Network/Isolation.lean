import Fion.Machine.Unwinding
import Fion.Network.Outcome

/-!
# Connections do not see each other

A pool serves its connections in any order, and the calls for them come interleaved.
Two pools are compared for one descriptor: they are `Alike` when they hold the same
client under it and an observer saw the same of it.  What the observer looks at is a
parameter (`observed`), and so is what may differ between the two pools, as long as the
observer does not see it (`Agree`).  Then a call for another descriptor, on either side,
does not show, and the same call for this one keeps the pools alike
(`unwinds_of_agree`), so the general statement about runs applies.

There are two observers.  One looks at what a connection asked for, and leaves the
user code and its answers out.  It sees the same in any two pools, whatever handlers
and routes they have (`requests_isolated`).  The other one looks at everything.  It sees
what it would see if the connection were the only one of a new server, when the results
of the user code do not depend on the state that they share (`sees_as_alone`).
-/

namespace Fion.Network

open Cpp (Bytes Exn ascii)
open Machine (AlwaysStep Unwinds)

variable {W V ω : Type}

/-! ## Observers -/

/-- What was seen of a descriptor. -/
def seen (log : List (Event W)) (fd : Fd) : List (Event W) := log.filter fun e => e.fd = fd

/-- Events about other descriptors are not seen. -/
theorem seen_append_of_ne {es : List (Event W)} {fd : Fd} (h : ∀ e ∈ es, e.fd ≠ fd)
    (log : List (Event W)) : seen (log ++ es) fd = seen log fd := by
  have hnone : es.filter (fun e => e.fd = fd) = [] :=
    List.filter_eq_nil_iff.mpr fun e he => by simpa using h e he
  rw [seen, List.filter_append, hnone, List.append_nil]
  rfl

/-- Events about the descriptor are seen in order. -/
theorem seen_append_of_fd {es : List (Event W)} {fd : Fd} (h : ∀ e ∈ es, e.fd = fd)
    (log : List (Event W)) : seen (log ++ es) fd = seen log fd ++ es := by
  have hall : es.filter (fun e => e.fd = fd) = es :=
    List.filter_eq_self.mpr fun e he => by simpa using h e he
  rw [seen, List.filter_append, hall]
  rfl

/-- What an observer makes of it. -/
def observed (look : Event W → Option ω) (log : List (Event W)) (fd : Fd) : List ω :=
  (seen log fd).filterMap look

namespace Pool

/-- The descriptor that a call is about. -/
def Input.fd : Input → Fd
  | .addClient fd => fd
  | .event fd _ _ _ => fd

@[simp] theorem Input.fd_addClient (fd : Fd) : (Input.addClient fd).fd = fd := rfl

@[simp] theorem Input.fd_event (fd : Fd) (events : UInt32) (recv : RecvResult)
    (send : SendResult) : (Input.event fd events recv send).fd = fd := rfl

/-- The call is about the descriptor. -/
def Input.isFor (fd : Fd) (input : Input) : Bool := input.fd = fd

/-- Two pools in which the observers see the same of a descriptor. -/
structure Alike (look : Event W → Option ω) (look' : Event V → Option ω) (fd : Fd)
    (p : Pool W) (q : Pool V) : Prop where
  left : p.Consistent
  right : q.Consistent
  client : p.connectionPool.getClient fd = q.connectionPool.getClient fd
  observed : observed look p.log fd = observed look' q.log fd

/-- What two observers must not tell apart: the calls that add a connection, store data
and close it, and two runs of `process_request` on the same client. -/
structure Agree (regex : RegexEngine) (routes : List (Route W)) (regex' : RegexEngine)
    (routes' : List (Route V)) (look : Event W → Option ω) (look' : Event V → Option ω)
    (fd : Fd) : Prop where
  added : look (.added fd) = look' (.added fd)
  received : ∀ data, look (.received fd data) = look' (.received fd data)
  closed : look (.closed fd) = look' (.closed fd)
  served : ∀ {client : Client} {w w' : W} {v v' : V} {raw raw' : Bytes} {calls : List (Call W)}
    {calls' : List (Call V)},
    processRequest regex routes client w = (.ok (client.setResponse raw), w', calls) →
    processRequest regex' routes' client v = (.ok (client.setResponse raw'), v', calls') →
    ∀ send : SendResult,
      (servedEvents fd client.requestBuffer calls raw (send.taken raw)).filterMap look =
        (servedEvents fd client.requestBuffer calls' raw' (send.taken raw')).filterMap look'

variable {look : Event W → Option ω} {look' : Event V → Option ω} {fd : Fd} {p : Pool W}
  {q : Pool V}

theorem Alike.symm (h : Alike look look' fd p q) : Alike look' look fd q p :=
  ⟨h.right, h.left, h.client.symm, h.observed.symm⟩

/-- A new server looks the same as any other one. -/
theorem alike_start (w : W) (v : V) :
    Alike look look' fd ({ world := w } : Pool W) ({ world := v } : Pool V) :=
  ⟨consistent_start w, consistent_start v, rfl, rfl⟩

/-! ## Calls for other descriptors -/

section Routed

variable {regex : RegexEngine} {routes : List (Route W)} {regex' : RegexEngine}
  {routes' : List (Route V)}

variable (regex routes) in
/-- A call leaves the clients of other descriptors alone, and nothing is seen of them. -/
theorem next_of_ne (h : p.Consistent) {input : Input} (hadm : p.Admits input)
    (hne : input.fd ≠ fd) :
    (p.next regex routes input).connectionPool.getClient fd = p.connectionPool.getClient fd ∧
      seen (p.next regex routes input).log fd = seen p.log fd := by
  cases input with
  | addClient other =>
      have hother : ∀ e ∈ [Event.added (W := W) other], e.fd ≠ fd := by simpa [Event.fd] using hne
      rw [next, addClient_of_new hadm.1 hadm.2 (h.not_registered hadm.2)]
      exact ⟨ConnectionPool.getClient_put_of_ne (Ne.symm hne) _, seen_append_of_ne hother _⟩
  | event other events recv send =>
      rw [next_event regex routes h]
      cases p.connectionPool.getClient other with
      | none => exact ⟨rfl, rfl⟩
      | some client =>
          refine ⟨getClient_settle_of_ne _ _ _ (Ne.symm hne), ?_⟩
          rw [settle_log]
          refine seen_append_of_ne (fun e he => ?_) _
          rw [(fd_of_mem_outcome he).1]
          exact hne

/-- A call for another descriptor does not show. -/
theorem Alike.next_left (h : Alike look look' fd p q) {input : Input} (hadm : p.Admits input)
    (hother : input.isFor fd = false) : Alike look look' fd (p.next regex routes input) q := by
  have hne : input.fd ≠ fd := by simpa [Input.isFor] using hother
  obtain ⟨hclient, hseen⟩ := next_of_ne regex routes h.left hadm hne
  exact ⟨consistent_next regex routes h.left hadm, h.right, hclient.trans h.client,
    (congrArg (List.filterMap look) hseen).trans h.observed⟩

/-! ## Calls for the descriptor -/

/-- The pools show the same of the descriptor. -/
def SameFor (look : Event W → Option ω) (look' : Event V → Option ω) (fd : Fd) (p : Pool W)
    (q : Pool V) : Prop :=
  p.connectionPool.getClient fd = q.connectionPool.getClient fd ∧
    Network.observed look p.log fd = Network.observed look' q.log fd

/-- The same is seen of both when they record events that look the same. -/
theorem Alike.observed_append (h : Alike look look' fd p q) {es : List (Event W)}
    {es' : List (Event V)} (hes : ∀ e ∈ es, e.fd = fd) (hes' : ∀ e ∈ es', e.fd = fd)
    (hlook : es.filterMap look = es'.filterMap look') :
    Network.observed look (p.log ++ es) fd = Network.observed look' (q.log ++ es') fd := by
  have hobserved := h.observed
  rw [Network.observed, Network.observed] at hobserved ⊢
  rw [seen_append_of_fd hes, seen_append_of_fd hes', List.filterMap_append,
    List.filterMap_append, hobserved, hlook]

/-- Adding the connection to both pools. -/
theorem Alike.same_addClient (h : Alike look look' fd p q)
    (hadded : look (.added fd) = look' (.added fd)) (hp : p.Admits (.addClient fd))
    (hq : q.Admits (.addClient fd)) :
    SameFor look look' fd (p.next regex routes (.addClient fd))
      (q.next regex' routes' (.addClient fd)) := by
  rw [next, next, addClient_of_new hp.1 hp.2 (h.left.not_registered hp.2),
    addClient_of_new hq.1 hq.2 (h.right.not_registered hq.2)]
  refine ⟨by simp [enroll], h.observed_append (by simp [Event.fd]) (by simp [Event.fd]) ?_⟩
  simp only [List.filterMap_cons, hadded, List.filterMap_nil]

/-- The same event leaves the same of the client, and the observers see the same. -/
theorem Agree.same_outcome (h : Agree regex routes regex' routes' look look' fd) (client : Client)
    (w : W) (v : V) (events : UInt32) (recv : RecvResult) (send : SendResult) :
    let o := outcome regex routes fd client w events recv send
    let o' := outcome regex' routes' fd client v events recv send
    o.client = o'.client ∧ o.events.filterMap look = o'.events.filterMap look' := by
  have hclosed : [Event.closed fd].filterMap look = [Event.closed fd].filterMap look' := by
    simp only [List.filterMap_cons, h.closed, List.filterMap_nil]
  unfold outcome
  split_ifs with hbroken hread
  · exact ⟨rfl, hclosed⟩
  · exact ⟨rfl, rfl⟩
  · cases recv with
    | closed | failed => exact ⟨rfl, hclosed⟩
    | received chunk =>
        simp only
        split_ifs with hready
        · obtain ⟨raw, w', calls, -, hproc⟩ := processRequest_returns regex routes
            ((client.appendRequest chunk.bytes).setState .processing) w
          obtain ⟨raw', v', calls', -, hproc'⟩ := processRequest_returns regex' routes'
            ((client.appendRequest chunk.bytes).setState .processing) v
          have hserved := h.served hproc hproc' send
          rw [Client.setState_requestBuffer] at hserved
          refine ⟨rfl, ?_⟩
          simp only [answered, hproc, hproc', preparedBytes, Client.setResponse_responseBuffer,
            List.filterMap_cons, h.received, hserved]
        · refine ⟨rfl, ?_⟩
          simp only [List.filterMap_cons, h.received, List.filterMap_nil]

/-- The same event in both pools. -/
theorem Alike.same_event (h : Alike look look' fd p q)
    (hagree : Agree regex routes regex' routes' look look' fd) (events : UInt32)
    (recv : RecvResult) (send : SendResult) :
    SameFor look look' fd (p.next regex routes (.event fd events recv send))
      (q.next regex' routes' (.event fd events recv send)) := by
  rw [next_event regex routes h.left, next_event regex' routes' h.right, ← h.client]
  cases p.connectionPool.getClient fd with
  | none => exact ⟨h.client, h.observed⟩
  | some client =>
      obtain ⟨hclient, hlook⟩ := hagree.same_outcome client p.world q.world events recv send
      refine ⟨by rw [getClient_settle_self, getClient_settle_self, hclient], ?_⟩
      rw [settle_log, settle_log]
      exact h.observed_append (fun e he => (fd_of_mem_outcome he).1)
        (fun e he => (fd_of_mem_outcome he).1) hlook

/-- Every pair of pools that the observers do not tell apart unwinds. -/
theorem unwinds_of_agree (hagree : Agree regex routes regex' routes' look look' fd) :
    Unwinds (next regex routes) Admits (next regex' routes') Admits (Input.isFor fd)
      (Alike look look' fd) where
  left := fun h hadm hother => h.next_left hadm hother
  right := fun h hadm hother => (h.symm.next_left hadm hother).symm
  both := by
    intro p q input h hp hq hown
    obtain ⟨hclient, hobserved⟩ : SameFor look look' fd (p.next regex routes input)
        (q.next regex' routes' input) := by
      cases input with
      | addClient fd' =>
          obtain rfl : fd' = fd := of_decide_eq_true hown
          exact h.same_addClient hagree.added hp hq
      | event fd' events recv send =>
          obtain rfl : fd' = fd := of_decide_eq_true hown
          exact h.same_event hagree events recv send
    exact ⟨consistent_next regex routes h.left hp, consistent_next regex' routes' h.right hq,
      hclient, hobserved⟩

/-- A call of the descriptor that one of two such pools admits, the other one admits. -/
theorem Alike.admits (h : Alike look look' fd p q) {input : Input} (hadm : p.Admits input)
    (hown : input.isFor fd = true) : q.Admits input := by
  cases input with
  | addClient fd' =>
      obtain rfl : fd' = fd := of_decide_eq_true hown
      exact ⟨hadm.1, h.client ▸ hadm.2⟩
  | event fd' events recv send => trivial

end Routed

/-! ## What connections ask for -/

end Pool

/-- What a connection asks for: data arrives, a request is processed, it ends. -/
inductive Sign where
  | added
  | received (data : Bytes)
  | processed (requestData : Bytes)
  | closed
deriving DecidableEq

/-- The observer that looks at what a connection asks for. -/
def Event.sign : Event W → Option Sign
  | .added _ => some .added
  | .received _ data => some (.received data)
  | .processed _ requestData => some (.processed requestData)
  | .closed _ => some .closed
  | .called .. | .prepared .. | .sent .. => none

/-- The user code and its answer are left out. -/
theorem filterMap_sign_served (fd : Fd) (requestData : Bytes) (calls : List (Call W))
    (response taken : Bytes) :
    (servedEvents fd requestData calls response taken).filterMap Event.sign =
      [.processed requestData, .closed] := by
  have hcalls : (calls.map (Event.called fd)).filterMap Event.sign = [] := by
    rw [List.filterMap_map]
    exact List.filterMap_eq_nil_iff.mpr fun _ _ => rfl
  rw [servedEvents, List.filterMap_cons, List.filterMap_append, hcalls]
  rfl

namespace Pool

/-- This observer does not tell any two pools apart. -/
theorem agree_sign (regex : RegexEngine) (routes : List (Route W)) (regex' : RegexEngine)
    (routes' : List (Route V)) (fd : Fd) :
    Agree regex routes regex' routes' Event.sign Event.sign fd where
  added := rfl
  received := fun _ => rfl
  closed := rfl
  served := fun _ _ _ => by rw [filterMap_sign_served, filterMap_sign_served]

/-- Two servers, with any user code, handle any calls in any order.  As long as the calls
for one descriptor are the same and come in the same order, the connection under it is in
the same state in both, and the same data arrived for it, the same requests were
processed and it was closed at the same places. -/
theorem requests_isolated {regex : RegexEngine} {routes : List (Route W)} {regex' : RegexEngine}
    {routes' : List (Route V)} {w : W} {v : V} {as bs : List Input}
    (has : AlwaysStep (next regex routes) Admits ({ world := w } : Pool W) as)
    (hbs : AlwaysStep (next regex' routes') Admits ({ world := v } : Pool V) bs) (fd : Fd)
    (hown : as.filter (Input.isFor fd) = bs.filter (Input.isFor fd)) :
    let p := as.foldl (next regex routes) { world := w }
    let q := bs.foldl (next regex' routes') { world := v }
    p.connectionPool.getClient fd = q.connectionPool.getClient fd ∧
      observed Event.sign p.log fd = observed Event.sign q.log fd := by
  intro p q
  have halike : Alike Event.sign Event.sign fd p q :=
    (unwinds_of_agree (agree_sign regex routes regex' routes' fd)).run (alike_start w v) has hbs
      hown
  exact ⟨halike.client, halike.observed⟩

/-- Two pieces of data for a connection. -/
def twoPieces : List Input :=
  [.addClient 3,
    .event 3 PollerEvent.READ (.received ⟨ascii "GET /a", by decide, by decide⟩) .wouldBlock,
    .event 3 PollerEvent.READ (.received ⟨ascii " HTTP/1.1\r\n\r\n", by decide, by decide⟩)
      (.accepted 9)]

/-- The same with another connection between them. -/
def besideAnother : List Input :=
  [.addClient 3, .addClient 4,
    .event 3 PollerEvent.READ (.received ⟨ascii "GET /a", by decide, by decide⟩) .wouldBlock,
    .event 4 PollerEvent.HANGUP .failed .wouldBlock,
    .event 3 PollerEvent.READ (.received ⟨ascii " HTTP/1.1\r\n\r\n", by decide, by decide⟩)
      (.accepted 9)]

theorem twoPieces_isolated :
    observed Event.sign (twoPieces.foldl (next (fun _ => .ok fun _ => none) [])
        ({ world := () } : Pool Unit)).log 3 =
      observed Event.sign (besideAnother.foldl (next (fun _ => .ok fun _ => some []) [])
        ({ world := 7 } : Pool Nat)).log 3 := by
  have htwo : AlwaysStep (next (fun _ => .ok fun _ => none) []) Admits
      ({ world := () } : Pool Unit) twoPieces :=
    ⟨⟨by decide, rfl⟩, trivial, trivial, trivial⟩
  have hbeside : AlwaysStep (next (fun _ => .ok fun _ => some []) []) Admits
      ({ world := 7 } : Pool Nat) besideAnother :=
    ⟨⟨by decide, rfl⟩, ⟨by decide, rfl⟩, trivial, trivial, trivial, trivial⟩
  exact (requests_isolated htwo hbeside 3 rfl).2

end Pool

end Fion.Network
