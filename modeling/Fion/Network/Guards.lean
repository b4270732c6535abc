import Fion.FirstMatch
import Fion.Network.Dispatch
import Fion.Registration

/-!
# Middleware guards

The user code that runs for a request.  When anything runs, the request decodes, the
table has a first route for it with a handler, and what runs is what `runHandler`
runs for that route (`processRequest_calls_cases`).  `runHandler` runs the middleware
of the route one after the other, each on what the one before it left (`Passes`), and
then the handler; the first middleware that throws is the last to run.

So no handler runs without the whole middleware of its route
(`handler_is_guarded`), where the route's middleware is what the builder calls gave
it (`Registration.entries`).
-/

namespace Fion.Network

open Cpp (Bytes Exn ascii)
open Http (Request StringMap)

variable {W : Type} {regex : RegexEngine} {routes : List (Route W)}

/-! ## The middleware loop -/

/-- The middleware of a list returns one after the other, each on the request pointer
and the state that the one before it left. -/
inductive Passes :
    RequestPtr → W → List (Middleware W) → List (Call W) → RequestPtr → W → Prop where
  | nil {ptr : RequestPtr} {w : W} : Passes ptr w [] [] ptr w
  | cons {ptr ptr' ptr'' : RequestPtr} {w w' w'' : W} {mw : Middleware W}
      {mws : List (Middleware W)} {calls : List (Call W)} :
      mw ptr w = (.ok ptr', w') →
      Passes ptr' w' mws calls ptr'' w'' →
      Passes ptr w (mw :: mws) (.middleware mw ptr :: calls) ptr'' w''

/-- Middleware that returns is passed, and then the loop goes on. -/
theorem runMiddleware_append {ptr ptr' : RequestPtr} {w w' : W} {passed : List (Middleware W)}
    {calls : List (Call W)} (h : Passes ptr w passed calls ptr' w') (rest : List (Middleware W)) :
    runMiddleware ptr w (passed ++ rest) =
      let (outcome, w'', after) := runMiddleware ptr' w' rest
      (outcome, w'', calls ++ after) := by
  induction h with
  | nil => rfl
  | cons hmw _ ih =>
      rw [List.cons_append, runMiddleware, hmw]
      simp only [ih, List.cons_append]

/-- The loop when all middleware returns. -/
theorem runMiddleware_of_passes {ptr ptr' : RequestPtr} {w w' : W} {mws : List (Middleware W)}
    {calls : List (Call W)} (h : Passes ptr w mws calls ptr' w') :
    runMiddleware ptr w mws = (.ok ptr', w', calls) := by
  have happend := runMiddleware_append h []
  simpa [runMiddleware] using happend

/-- The loop ends at a middleware that throws. -/
theorem runMiddleware_of_throws {ptr ptr' : RequestPtr} {w w' w'' : W} {e : Exn}
    {passed : List (Middleware W)} {mw : Middleware W} {calls : List (Call W)}
    (h : Passes ptr w passed calls ptr' w') (hmw : mw ptr' w' = (.error e, w''))
    (rest : List (Middleware W)) :
    runMiddleware ptr w (passed ++ mw :: rest) =
      (.error e, w'', calls ++ [.middleware mw ptr']) := by
  rw [runMiddleware_append h, runMiddleware, hmw]

/-- All middleware returns, or there is a first one that throws. -/
theorem passes_or_throws (mws : List (Middleware W)) (ptr : RequestPtr) (w : W) :
    (∃ calls ptr' w', Passes ptr w mws calls ptr' w') ∨
      ∃ passed mw rest calls ptr' w' e w'', mws = passed ++ mw :: rest ∧
        Passes ptr w passed calls ptr' w' ∧ mw ptr' w' = (.error e, w'') := by
  induction mws generalizing ptr w with
  | nil => exact .inl ⟨[], ptr, w, .nil⟩
  | cons mw rest ih =>
      cases hmw : mw ptr w with
      | mk outcome w' =>
          cases outcome with
          | error e => exact .inr ⟨[], mw, rest, [], ptr, w, e, w', rfl, .nil, hmw⟩
          | ok ptr' =>
              rcases ih ptr' w' with ⟨calls, ptr'', w'', hpasses⟩ |
                ⟨passed, mw', rest', calls, ptr'', w'', e, w₃, rfl, hpasses, hthrows⟩
              · exact .inl ⟨_, ptr'', w'', .cons hmw hpasses⟩
              · exact .inr ⟨mw :: passed, mw', rest', _, ptr'', w'', e, w₃, rfl,
                  .cons hmw hpasses, hthrows⟩

/-! ## The branch with a handler -/

/-- When all middleware returns, the handler runs on what the last one left. -/
theorem runHandler_calls_of_passes {request : Request} {params : StringMap} {ptr : RequestPtr}
    {w w' : W} {mws : List (Middleware W)} {calls : List (Call W)}
    (h : Passes (some (attachParams request params)) w mws calls ptr w') (handler : Handler W) :
    (runHandler request params mws handler w).2.2 = calls ++ [.handler handler ptr] := by
  rw [runHandler, runMiddleware_of_passes h]

/-- When one throws, nothing runs after it. -/
theorem runHandler_calls_of_throws {request : Request} {params : StringMap} {ptr : RequestPtr}
    {w w' w'' : W} {e : Exn} {passed : List (Middleware W)} {mw : Middleware W}
    {calls : List (Call W)}
    (h : Passes (some (attachParams request params)) w passed calls ptr w')
    (hmw : mw ptr w' = (.error e, w'')) (rest : List (Middleware W)) (handler : Handler W) :
    (runHandler request params (passed ++ mw :: rest) handler w).2.2 =
      calls ++ [.middleware mw ptr] := by
  rw [runHandler, runMiddleware_of_throws h hmw]

/-- A handler that runs has the whole middleware in front of it. -/
theorem passes_of_handler_mem {request : Request} {params : StringMap} {mws : List (Middleware W)}
    {handler handler' : Handler W} {ptr : RequestPtr} {w : W}
    (h : Call.handler handler' ptr ∈ (runHandler request params mws handler w).2.2) :
    handler' = handler ∧ ∃ calls w',
      Passes (some (attachParams request params)) w mws calls ptr w' ∧
        (runHandler request params mws handler w).2.2 = calls ++ [.handler handler ptr] := by
  have hsame := eq_of_handler_mem_runHandler h
  subst hsame
  have hno : Call.handler handler' ptr ∉
      (runMiddleware (some (attachParams request params)) w mws).2.2 :=
    handler_not_mem_runMiddleware mws _ w
  rcases passes_or_throws mws (some (attachParams request params)) w with
    ⟨calls, ptr', w', hpasses⟩ | ⟨passed, mw, rest, calls, ptr', w', e, w'', rfl, hpasses, hthrows⟩
  · have hcalls := runHandler_calls_of_passes hpasses handler'
    rw [runMiddleware_of_passes hpasses] at hno
    rw [hcalls] at h
    rcases List.mem_append.mp h with hmem | hmem
    · exact absurd hmem hno
    · obtain ⟨-, rfl⟩ := Call.handler.inj (List.mem_singleton.mp hmem)
      exact ⟨rfl, calls, w', hpasses, hcalls⟩
  · rw [runMiddleware_of_throws hpasses hthrows] at hno
    rw [runHandler_calls_of_throws hpasses hthrows] at h
    exact absurd h hno

/-! ## The calls of a request -/

/-- Either nothing runs, or the request decodes and what runs is what `runHandler`
runs for the first route that takes it. -/
theorem processRequest_calls_cases (regex : RegexEngine) (routes : List (Route W))
    (client : Client) (w : W) :
    (processRequest regex routes client w).2.2 = [] ∨
      ∃ request route params handler, Decodes client.requestBuffer request ∧
        FirstTakes regex (routingPath request) (routingMethod request.method) ∅ routes route
          params ∧
        route.handler = some handler ∧
        (processRequest regex routes client w).2.2 =
          (runHandler request params route.middleware handler w).2.2 := by
  rw [processRequest_calls]
  have hway := respond_way regex routes client.requestBuffer w
  generalize respond regex routes client.requestBuffer w = outcome at hway
  cases hway with
  | unsplit _ _ => exact .inl rfl
  | rejected _ => exact .inl rfl
  | unsearched _ _ => exact .inl rfl
  | unrouted _ _ _ => exact .inl rfl
  | @dispatched request _ handler hdispatched =>
      obtain ⟨hdecodes, hlookup, hhandler⟩ := hdispatched
      obtain ⟨route, params, hfirst, rfl⟩ := firstTakes_of_findRoute hlookup hhandler
      exact .inr ⟨request, route, params, handler, hdecodes, hfirst, hhandler, rfl⟩

/-- What is known of a request whose handler or middleware runs: the route is the
first one that the builder calls registered for it. -/
def RoutedTo (regex : RegexEngine) (registrations : List (Registration W)) (client : Client)
    (request : Request) (route : Route W) (params : StringMap) : Prop :=
  Decodes client.requestBuffer request ∧
    FirstTakes regex (routingPath request) (routingMethod request.method) ∅
      (registrations.flatMap Registration.entries) route params

/-- No guard is skipped.  When a handler runs, it is the handler of the first route
that takes the request, and the whole middleware of that route ran in front of it.
When a middleware of the route throws, what runs ends with it. -/
theorem handler_is_guarded (regex : RegexEngine) (registrations : List (Registration W))
    (client : Client) (w : W) :
    let calls := (processRequest regex (register registrations) client w).2.2
    (∀ handler ptr, Call.handler handler ptr ∈ calls →
      ∃ request route params before w',
        RoutedTo regex registrations client request route params ∧
        route.handler = some handler ∧
        Passes (some (attachParams request params)) w route.middleware before ptr w' ∧
        calls = before ++ [.handler handler ptr]) ∧
    ∀ request route params passed mw rest before ptr w' e w'',
      RoutedTo regex registrations client request route params →
      route.middleware = passed ++ mw :: rest →
      Passes (some (attachParams request params)) w passed before ptr w' →
      mw ptr w' = (.error e, w'') →
      calls = [] ∨ calls = before ++ [.middleware mw ptr] := by
  intro calls
  have hcases := processRequest_calls_cases regex (register registrations) client w
  rw [show (processRequest regex (register registrations) client w).2.2 = calls from rfl,
    register_eq] at hcases
  constructor
  · intro handler ptr hmem
    rcases hcases with hnil | ⟨request, route, params, handler', hdecodes, hfirst, hhandler, hcalls⟩
    · rw [hnil] at hmem
      cases hmem
    · rw [hcalls] at hmem
      obtain ⟨rfl, before, w', hpasses, hruns⟩ := passes_of_handler_mem hmem
      exact ⟨request, route, params, before, w', ⟨hdecodes, hfirst⟩, hhandler, hpasses,
        hcalls.trans hruns⟩
  · intro request route params passed mw rest before ptr w' e w'' hrouted hmiddleware hpasses
      hthrows
    rcases hcases with hnil | ⟨request', route', params', handler, hdecodes, hfirst, -, hcalls⟩
    · exact .inl hnil
    · obtain rfl := hdecodes.unique hrouted.1
      obtain ⟨rfl, rfl⟩ := hfirst.unique hrouted.2
      rw [hmiddleware, runHandler_calls_of_throws hpasses hthrows] at hcalls
      exact .inr hcalls

/-- A group with a middleware of its own around a route that has one. -/
def guardedGroup : List (Registration Unit) :=
  [.addGroup (ascii "/admin")
    [{ pathPattern := ascii "/.*", method := ascii "GET", handler := some fun _ w => (.ok {}, w)
       middleware := [fun ptr w => (.ok ptr, w)], isRegex := true }]
    [fun ptr w => (.ok ptr, w)]]

/-- A request for a path under its prefix. -/
def guardedRequest : Bytes := ascii "GET /admin/log HTTP/1.1\r\n\r\n"

theorem guardedGroup_runs_guards : ∃ handler request ptr before w',
    Passes (some request) () [fun ptr w => (.ok ptr, w), fun ptr w => (.ok ptr, w)] before ptr w' ∧
    (processRequest starEngine (register guardedGroup) (clientWith guardedRequest) ()).2.2 =
      before ++ [.handler handler ptr] := by
  have hmem : ∃ handler ptr, Call.handler handler ptr ∈
      (processRequest starEngine (register guardedGroup) (clientWith guardedRequest) ()).2.2 :=
    ⟨_, _, .tail _ (.tail _ (.head _))⟩
  obtain ⟨handler, ptr, hmem⟩ := hmem
  obtain ⟨request, route, params, before, w', hrouted, hhandler, hpasses, hcalls⟩ :=
    (handler_is_guarded starEngine guardedGroup (clientWith guardedRequest) ()).1 handler ptr hmem
  have hroute : route ∈ guardedGroup.flatMap Registration.entries := by
    obtain ⟨earlier, later, hroutes, -⟩ := hrouted.2
    rw [hroutes]
    exact List.mem_append_right earlier List.mem_cons_self
  obtain rfl := List.mem_singleton.mp hroute
  exact ⟨handler, _, ptr, before, w', hpasses, hcalls⟩

end Fion.Network
