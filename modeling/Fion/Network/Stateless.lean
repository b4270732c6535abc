import Fion.FirstMatch
import Fion.Network.Isolation

/-!
# Alone on the server

User code can read and change a state that all connections share, so one connection's
answer can depend on what was served before.  When the results of handlers and
middleware do not depend on that state (`Route.Stateless`), the answer to a request does
not either (`processRequest_stateless`).  Then nothing that is seen of a connection, its
answer included, depends on the other connections: it is what is seen when the server
gets no other calls (`sees_as_alone`).
-/

namespace Fion

variable {W : Type}

/-- What the user code of a route returns or throws does not depend on the state. -/
structure Route.Stateless (route : Route W) : Prop where
  handler : ∀ h, route.handler = some h → ∀ ptr w w', (h ptr w).1 = (h ptr w').1
  middleware : ∀ mw ∈ route.middleware, ∀ ptr w w', (mw ptr w).1 = (mw ptr w').1

namespace Network

open Cpp (Bytes Exn ascii)
open Http (Request Response StringMap)
open Machine (AlwaysStep)

/-! ## Answers -/

/-- The same outcome and the same runs of user code. -/
def SameRun {β : Type} (x y : Except Exn β × W × List (Call W)) : Prop :=
  x.1 = y.1 ∧ x.2.2 = y.2.2

/-- The middleware loop does not depend on the state. -/
theorem runMiddleware_stateless {mws : List (Middleware W)}
    (h : ∀ mw ∈ mws, ∀ ptr w w', (mw ptr w).1 = (mw ptr w').1) (ptr : RequestPtr) (w w' : W) :
    SameRun (runMiddleware ptr w mws) (runMiddleware ptr w' mws) := by
  induction mws generalizing ptr w w' with
  | nil => exact ⟨rfl, rfl⟩
  | cons mw rest ih =>
      have hmw := h mw List.mem_cons_self ptr w w'
      have hrest := ih fun mw' hmw' => h mw' (List.mem_cons_of_mem mw hmw')
      rw [runMiddleware, runMiddleware]
      cases hx : mw ptr w with
      | mk outcome x =>
          cases hy : mw ptr w' with
          | mk outcome' y =>
              rw [hx, hy] at hmw
              obtain rfl : outcome = outcome' := hmw
              cases outcome with
              | error e => exact ⟨rfl, rfl⟩
              | ok ptr' =>
                  obtain ⟨houtcome, hcalls⟩ := hrest ptr' x y
                  exact ⟨houtcome, congrArg (_ :: ·) hcalls⟩

/-- Neither does the branch with a handler. -/
theorem runHandler_stateless {route : Route W} (h : route.Stateless) {handler : Handler W}
    (hhandler : route.handler = some handler) (request : Request) (params : StringMap) (w w' : W) :
    SameRun (runHandler request params route.middleware handler w)
      (runHandler request params route.middleware handler w') := by
  obtain ⟨houtcome, hcalls⟩ :=
    runMiddleware_stateless h.middleware (some (attachParams request params)) w w'
  rw [runHandler, runHandler]
  cases hx : runMiddleware (some (attachParams request params)) w route.middleware with
  | mk outcome rest =>
      cases hy : runMiddleware (some (attachParams request params)) w' route.middleware with
      | mk outcome' rest' =>
          obtain ⟨x, calls⟩ := rest
          obtain ⟨y, calls'⟩ := rest'
          rw [hx, hy] at houtcome hcalls
          obtain rfl : outcome = outcome' := houtcome
          obtain rfl : calls = calls' := hcalls
          cases outcome with
          | error e => exact ⟨rfl, rfl⟩
          | ok ptr => exact ⟨congrArg (Except.map _) (h.handler handler hhandler ptr x y), rfl⟩

variable {regex : RegexEngine} {routes : List (Route W)}

variable (regex) in
/-- Nor does what the `try` block yields. -/
theorem respond_stateless (h : ∀ route ∈ routes, route.Stateless) (requestData : Bytes)
    (w w' : W) :
    SameRun (respond regex routes requestData w) (respond regex routes requestData w') := by
  have hdispatch : ∀ request, SameRun (dispatch regex routes request w)
      (dispatch regex routes request w') := by
    intro request
    rw [dispatch, dispatch]
    cases hlookup : lookupRoute regex routes request with
    | error e => exact ⟨rfl, rfl⟩
    | ok found =>
        cases hhandler : found.handler with
        | none => simp only [hhandler]; exact ⟨rfl, rfl⟩
        | some handler =>
            obtain ⟨route, params, hfirst, rfl⟩ := firstTakes_of_findRoute hlookup hhandler
            have hroute : route.handler = some handler := hhandler
            simp only [hroute]
            exact runHandler_stateless (h route hfirst.mem.1) hroute request params w w'
  rw [respond, respond]
  cases splitRequest requestData with
  | error e => exact ⟨rfl, rfl⟩
  | ok parts =>
      cases parts with
      | noStartLine | noHeadersEnd => exact ⟨rfl, rfl⟩
      | parts startLine headers body =>
          cases hmake : Request.make startLine headers body with
          | error e => simp only [hmake]; exact ⟨rfl, rfl⟩
          | ok request => simp only [hmake]; exact hdispatch request

variable (regex) in
/-- The response that is prepared and the user code that runs do not depend on the
state. -/
theorem processRequest_stateless (h : ∀ route ∈ routes, route.Stateless) (client : Client)
    (w w' : W) :
    SameRun (processRequest regex routes client w) (processRequest regex routes client w') := by
  obtain ⟨houtcome, hcalls⟩ :=
    respond_stateless regex h client.requestBuffer w w'
  rw [processRequest, processRequest]
  cases hx : respond regex routes client.requestBuffer w with
  | mk outcome rest =>
      cases hy : respond regex routes client.requestBuffer w' with
      | mk outcome' rest' =>
          rw [hx, hy] at houtcome hcalls
          obtain rfl : outcome = outcome' := houtcome
          simp only
          cases outcome.bind client.prepareResponse with
          | ok client' => exact ⟨rfl, hcalls⟩
          | error e => exact ⟨rfl, hcalls⟩

/-! ## Connections -/

namespace Pool

variable (regex) in
/-- With such user code nothing at all tells two servers with the same routes apart. -/
theorem agree_stateless (h : ∀ route ∈ routes, route.Stateless) (fd : Fd) :
    Agree regex routes regex routes some some fd where
  added := rfl
  received := fun _ => rfl
  closed := rfl
  served := by
    intro client w w' v v' raw raw' calls calls' hp hq send
    obtain ⟨houtcome, hcalls⟩ := processRequest_stateless regex h client w v
    rw [hp, hq] at houtcome hcalls
    obtain rfl : raw = raw' := congrArg Client.responseBuffer (Except.ok.inj houtcome)
    obtain rfl : calls = calls' := hcalls
    rfl

/-- When the results of the user code do not depend on its state, a connection gets what
it would get alone: in any run of a server, what is seen of a descriptor (the data that
arrived, the requests that were processed, the user code that ran on them, the bytes of
the responses and what the socket took of them, and the closing) is what is seen when
another server, whatever its state, gets the calls for this descriptor and no others.
This other run can take place. -/
theorem sees_as_alone (h : ∀ route ∈ routes, route.Stateless) {w : W} {as : List Input}
    (has : AlwaysStep (next regex routes) Admits ({ world := w } : Pool W) as) (fd : Fd)
    (w' : W) :
    let own := as.filter (Input.isFor fd)
    let alone := own.foldl (next regex routes) { world := w' }
    AlwaysStep (next regex routes) Admits ({ world := w' } : Pool W) own ∧
      seen (as.foldl (next regex routes) { world := w }).log fd = seen alone.log fd := by
  intro own alone
  have hunwinds := unwinds_of_agree (agree_stateless regex h fd)
  have hstart : Alike some some fd ({ world := w } : Pool W) { world := w' } := alike_start w w'
  have hadmitted : AlwaysStep (next regex routes) Admits ({ world := w' } : Pool W) own :=
    hunwinds.alone (fun halike hadm hown => halike.admits hadm hown) hstart has
  have halike := hunwinds.run hstart has hadmitted (by rw [List.filter_filter]; simp)
  have hobserved := halike.observed
  rw [observed, observed, List.filterMap_some, List.filterMap_some] at hobserved
  exact ⟨hadmitted, hobserved⟩

/-- A handler that counts the requests it gets, and answers them all alike. -/
def countingRoutes : List (Route Nat) :=
  [{ pathPattern := ascii "/a", method := ascii "GET",
     handler := some fun _ w => (.ok {}, w + 1) }]

theorem countingRoutes_stateless : ∀ route ∈ countingRoutes, route.Stateless := by
  intro route hroute
  obtain rfl := List.mem_singleton.mp hroute
  refine ⟨fun handler hhandler ptr w w' => ?_, fun mw hmw => absurd hmw List.not_mem_nil⟩
  obtain rfl := Option.some.inj hhandler
  rfl

theorem besideAnother_alone :
    seen (besideAnother.foldl (next (fun _ => .ok fun _ => none) countingRoutes)
        ({ world := 0 } : Pool Nat)).log 3 =
      seen ((besideAnother.filter (Input.isFor 3)).foldl
        (next (fun _ => .ok fun _ => none) countingRoutes) ({ world := 5 } : Pool Nat)).log 3 := by
  have hbeside : AlwaysStep (next (fun _ => .ok fun _ => none) countingRoutes) Admits
      ({ world := 0 } : Pool Nat) besideAnother :=
    ⟨⟨by decide, rfl⟩, ⟨by decide, rfl⟩, trivial, trivial, trivial, trivial⟩
  exact (sees_as_alone countingRoutes_stateless hbeside 3 5).2

end Pool

end Network

end Fion
