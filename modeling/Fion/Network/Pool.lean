import Fion.Network.ConnectionPool
import Fion.Network.Poller
import Fion.Router

/-!
# Pools

A `Pool` serves its connections with one event loop.  `addClient` stores a new
connection and registers its descriptor, and `handleClientEvent` is the callback
for each event of the loop.

The model of the class has two members the source does not name.  `world` is
whatever handlers and middleware can read and change, and `log` is what can be
seen from outside, oldest first: the data that arrived, the requests that were
processed, the user code that ran, the data that was sent, the descriptors that
were closed.  No function reads the log.

A function that can throw returns the outcome next to the state it leaves, since
an exception undoes nothing.
-/

namespace Fion.Network

open Cpp (Bytes Exn ascii cr lf substr substrFrom sizeSub)
open Text (find)
open Http (Request Response Method StringMap)

variable {W : Type}

/-! ## Splitting a request -/

/-- The three parts of a request, or the reason why there are none. -/
inductive Parts where
  | noStartLine
  | noHeadersEnd
  | parts (startLine headers body : Bytes)
deriving DecidableEq

/-- The cuts at the front of `process_request`.  The length of the header block
is computed in `size_t`. -/
def splitRequest (requestData : Bytes) : Except Exn Parts :=
  match find [cr, lf] requestData with
  | none => .ok .noStartLine
  | some firstCrlf => do
      let startLine ← substr requestData 0 firstCrlf
      match find [cr, lf, cr, lf] requestData with
      | none => return .noHeadersEnd
      | some headersEnd => do
          let headers ← substr requestData (firstCrlf + 2)
            (sizeSub (sizeSub headersEnd firstCrlf) 2)
          let body ← substrFrom requestData (headersEnd + 4)
          return .parts startLine headers body

/-- The cuts are at positions that searches found, so none of them throws. -/
theorem splitRequest_of_find {requestData : Bytes} {firstCrlf headersEnd : Nat}
    (hfirst : find [cr, lf] requestData = some firstCrlf)
    (hend : find [cr, lf, cr, lf] requestData = some headersEnd) :
    splitRequest requestData = .ok (.parts (requestData.take firstCrlf)
      ((requestData.drop (firstCrlf + 2)).take (sizeSub (sizeSub headersEnd firstCrlf) 2))
      (requestData.drop (headersEnd + 4))) := by
  have hle := Text.find_le (by simp) hfirst
  have hle' := Text.find_le (by simp) hend
  simp only [List.length_cons, List.length_nil] at hle hle'
  rw [splitRequest, hfirst]
  simp only [hend, Cpp.substr_of_le (Nat.zero_le _), Cpp.substr_of_le hle,
    Cpp.substrFrom_of_le hle', Cpp.ok_bind]
  rfl

/-! ## The fixed responses -/

/-- The answer to data that does not split; it has no `Connection` header. -/
def badRequest : Response :=
  ({} : Response).setStatusCode .badRequest |>.setBody (ascii "Bad Request")

/-- The answer when no route matches. -/
def notFound : Response :=
  ({} : Response).setStatusCode .notFound |>.setBody (ascii "Not Found")
    |>.setHeader (ascii "Connection") (ascii "close")

/-- The answer to any exception. -/
def internalServerError : Response :=
  ({} : Response).setStatusCode .internalServerError |>.setBody (ascii "Internal Server Error")
    |>.setHeader (ascii "Connection") (ascii "close")

/-! ## User code -/

/-- One run of user code and the request it was given. -/
inductive Call (W : Type) where
  | middleware (mw : Middleware W) (request : RequestPtr)
  | handler (handler : Handler W) (request : RequestPtr)

/-- The method name that is looked up: a switch over four of the methods. -/
def routingMethod : Method → Bytes
  | .get => ascii "GET"
  | .post => ascii "POST"
  | .put => ascii "PUT"
  | .delete => ascii "DELETE"
  | _ => ascii "GET"

/-- The path that is looked up. -/
def routingPath (request : Request) : Bytes := request.url.pathToResource

/-- Captured parameters become headers of the request. -/
def attachParams (request : Request) (params : StringMap) : Request :=
  { request with
    headers := params.toList.foldl
      (fun headers kv => headers.set (ascii "x-param-" ++ kv.1) kv.2) request.headers }

/-- The middleware loop. -/
def runMiddleware (reqPtr : RequestPtr) (w : W) :
    List (Middleware W) → Except Exn RequestPtr × W × List (Call W)
  | [] => (.ok reqPtr, w, [])
  | mw :: rest =>
      match mw reqPtr w with
      | (.error e, w) => (.error e, w, [.middleware mw reqPtr])
      | (.ok reqPtr', w) =>
          let (outcome, w, calls) := runMiddleware reqPtr' w rest
          (outcome, w, .middleware mw reqPtr :: calls)

/-- The branch with a handler: parameters, middleware, handler. -/
def runHandler (request : Request) (params : StringMap) (middleware : List (Middleware W))
    (handler : Handler W) (w : W) : Except Exn Response × W × List (Call W) :=
  match runMiddleware (some (attachParams request params)) w middleware with
  | (.error e, w, calls) => (.error e, w, calls)
  | (.ok reqPtr, w, calls) =>
      let (outcome, w) := handler reqPtr w
      (outcome.map (·.setHeader (ascii "Connection") (ascii "close")), w,
        calls ++ [.handler handler reqPtr])

section Routed

variable (regex : RegexEngine) (routes : List (Route W))

/-- The lookup that `process_request` makes for a request. -/
def lookupRoute (request : Request) : Except Exn (Found W) :=
  findRoute regex (routingPath request) (routingMethod request.method) ∅ [] routes

/-- From the request object on. -/
def dispatch (request : Request) (w : W) : Except Exn Response × W × List (Call W) :=
  match lookupRoute regex routes request with
  | .error e => (.error e, w, [])
  | .ok found =>
      match found.handler with
      | some handler => runHandler request found.outParams found.outMiddleware handler w
      | none => (.ok notFound, w, [])

/-- The `try` block of `process_request` up to the response it prepares. -/
def respond (requestData : Bytes) (w : W) : Except Exn Response × W × List (Call W) :=
  match splitRequest requestData with
  | .error e => (.error e, w, [])
  | .ok (.parts startLine headers body) =>
      match Request.make startLine headers body with
      | .error e => (.error e, w, [])
      | .ok request => dispatch regex routes request w
  | .ok _ => (.ok badRequest, w, [])

/-- `process_request`.  A response that cannot be printed throws inside the `try`
block, like everything else. -/
def processRequest (client : Client) (w : W) : Except Exn Client × W × List (Call W) :=
  match respond regex routes client.requestBuffer w with
  | (outcome, w, calls) =>
      match outcome.bind client.prepareResponse with
      | .ok client => (.ok client, w, calls)
      | .error _ => (client.prepareResponse internalServerError, w, calls)

end Routed

/-- The data splits into parts that make up the request. -/
def Decodes (requestData : Bytes) (request : Request) : Prop :=
  ∃ startLine headers body, splitRequest requestData = .ok (.parts startLine headers body) ∧
    Request.make startLine headers body = .ok request

/-- Data that decodes is dispatched. -/
theorem respond_of_decodes {requestData : Bytes} {request : Request}
    (h : Decodes requestData request) (regex : RegexEngine) (routes : List (Route W)) (w : W) :
    respond regex routes requestData w = dispatch regex routes request w := by
  obtain ⟨startLine, headers, body, hsplit, hmake⟩ := h
  simp only [respond, hsplit, hmake]

/-- Data makes up one request. -/
theorem Decodes.unique {requestData : Bytes} {request request' : Request}
    (h : Decodes requestData request) (h' : Decodes requestData request') : request = request' := by
  obtain ⟨startLine, headers, body, hsplit, hmake⟩ := h
  obtain ⟨startLine', headers', body', hsplit', hmake'⟩ := h'
  obtain ⟨rfl, rfl, rfl⟩ := Parts.parts.inj (Except.ok.inj (hsplit.symm.trans hsplit'))
  exact Except.ok.inj (hmake.symm.trans hmake')

/-! ## The class -/

/-- What can be seen of a pool from outside. -/
inductive Event (W : Type) where
  | added (fd : Fd)
  | received (fd : Fd) (data : Bytes)
  | processed (fd : Fd) (requestData : Bytes)
  | called (fd : Fd) (call : Call W)
  | prepared (fd : Fd) (response : Bytes)
  | sent (fd : Fd) (data : Bytes)
  | closed (fd : Fd)

/-- The class `Pool`. -/
structure Pool (W : Type) where
  poller : Poller := {}
  connectionPool : ConnectionPool Client := {}
  world : W
  log : List (Event W) := []

namespace Pool

/-- Append to the log. -/
def record (p : Pool W) (events : List (Event W)) : Pool W := { p with log := p.log ++ events }

/-- The state that user code left. -/
def setWorld (p : Pool W) (world : W) : Pool W := { p with world := world }

/-- Write a changed client object back. -/
def store (p : Pool W) (fd : Fd) (client : Client) : Pool W :=
  { p with connectionPool := p.connectionPool.put fd client }

/-- What destroying the client object stored under `fd`, if there is one, closes. -/
def destroyed (p : Pool W) (fd : Fd) : List (Event W) :=
  (p.connectionPool.getClient fd).toList.map fun client => Event.closed client.fd

/-- `addClient`.  A client that was stored under the descriptor is destroyed. -/
def addClient (p : Pool W) (fd : Fd) (fault : Option Errno := none) : Except Exn Unit × Pool W :=
  match p.connectionPool.addClient fd with
  | .error e => (.error e, p)
  | .ok connectionPool =>
      let events := p.destroyed fd ++ [Event.added fd]
      let p := { p with connectionPool := connectionPool }.record events
      match p.poller.addFD fd (PollerEvent.READ ||| PollerEvent.EDGE_TRIGGERED) fault with
      | .error e => (.error e, p)
      | .ok poller => (.ok (), { p with poller := poller })

/-- `removeFD` and `removeClient`, the way every connection ends. -/
def closeClient (p : Pool W) (fd : Fd) : Except Exn Unit × Pool W :=
  match p.poller.removeFD fd with
  | .error e => (.error e, p)
  | .ok poller =>
      let connectionPool := p.connectionPool.removeClient fd
      (.ok (), { p with poller := poller, connectionPool := connectionPool }.record
        (p.destroyed fd))

section Routed

variable (regex : RegexEngine) (routes : List (Route W))

/-- The branch of `handle_client_event` for a complete request. -/
def serve (p : Pool W) (fd : Fd) (client : Client) (send : SendResult) :
    Except Exn Unit × Pool W :=
  let client := client.setState .processing
  let p := p.record [.processed fd client.requestBuffer]
  match processRequest regex routes client p.world with
  | (outcome, world, calls) =>
      let p := (p.setWorld world).record (calls.map (.called fd))
      match outcome with
      | .error e => (.error e, p.store fd client)
      | .ok client =>
          let (client', bytesSent, taken) := client.writeResponse send
          let p := (p.store fd client').record
            [.prepared fd client.responseBuffer, .sent fd taken]
          -- after an error and after a response the same two calls follow
          if bytesSent < 0 then p.closeClient fd else p.closeClient fd

/-- `handle_client_event`. -/
def handleClientEvent (p : Pool W) (fd : Fd) (events : UInt32) (recv : RecvResult)
    (send : SendResult) : Except Exn Unit × Pool W :=
  match p.connectionPool.getClient fd with
  | none => (.ok (), p)
  | some client =>
      if events &&& (PollerEvent.ERROR ||| PollerEvent.HANGUP) ≠ 0 then p.closeClient fd
      else if events &&& PollerEvent.READ ≠ 0 then
        let client := client.readRequest recv
        let p := (p.store fd client).record
          (match recv with
            | .received chunk => [.received fd chunk.bytes]
            | _ => [])
        if recv.count ≤ 0 then p.closeClient fd
        else if client.isRequestReady then p.serve regex routes fd client send
        else (.ok (), p)
      else (.ok (), p)

end Routed

end Pool

end Fion.Network
