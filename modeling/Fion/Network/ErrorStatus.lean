import Fion.Network.Answers

/-!
# Whose fault an error is

`process_request` builds three responses itself, each for one reason: data that does
not split, a request without a route, and an exception (`Generates`).  Every other
response was returned by a handler (`generates_or_returns`).

The status tells a fault of the peer from one of the server when the first line is
accepted: then `500` means that user code threw or that its response does not print
(`userFault_of_generatesStatus`).  When it is not accepted, the exception that says so
ends in the same place as theirs (`tellsFaults_iff`).
-/

namespace Fion.Network

open Cpp (Bytes Exn ascii cr lf)
open Text (find)
open Http (Request Response StatusCode AcceptedStartLine)

variable {W : Type} (regex : RegexEngine) (routes : List (Route W))

/-! ## Where a response comes from -/

/-- The response is one that `process_request` builds itself, for one of three
reasons. -/
inductive Generates (client : Client) (w : W) : Response → Prop where
  | unsplit {parts : Parts} :
      splitRequest client.requestBuffer = .ok parts →
      parts = .noStartLine ∨ parts = .noHeadersEnd →
      Generates client w badRequest
  | unrouted {request : Request} {found : Found W} :
      Decodes client.requestBuffer request →
      lookupRoute regex routes request = .ok found →
      found.handler = none →
      Generates client w notFound
  | caught {e : Exn} :
      (respond regex routes client.requestBuffer w).1.bind client.prepareResponse = .error e →
      Generates client w internalServerError

/-- `process_request` builds a response with the status itself. -/
def GeneratesStatus (client : Client) (w : W) (statusCode : StatusCode) : Prop :=
  ∃ response, Generates regex routes client w response ∧ response.statusCode = statusCode

/-- For the route that the request is given to, middleware throws, or the handler does,
or the response of the handler cannot be printed. -/
inductive UserFault (client : Client) (w : W) : Prop where
  | middleware {request : Request} {found : Found W} {handler : Handler W}
      {passed rest : List (Middleware W)} {mw : Middleware W} {calls : List (Call W)}
      {ptr : RequestPtr} {w' w'' : W} {e : Exn} :
      Dispatched regex routes client.requestBuffer request found handler →
      found.outMiddleware = passed ++ mw :: rest →
      Passes (some (attachParams request found.outParams)) w passed calls ptr w' →
      mw ptr w' = (.error e, w'') →
      UserFault client w
  | handler {request : Request} {found : Found W} {handler : Handler W} {calls : List (Call W)}
      {ptr : RequestPtr} {w' w'' : W} {e : Exn} :
      Dispatched regex routes client.requestBuffer request found handler →
      Passes (some (attachParams request found.outParams)) w found.outMiddleware calls ptr w' →
      handler ptr w' = (.error e, w'') →
      UserFault client w
  | printing {response : Response} {e : Exn} :
      HandlerReturns regex routes client.requestBuffer w response →
      (withClose response).toRawResponse = .error e →
      UserFault client w

/-- The status says whose fault an error is: `400` that the constructor of `Request`
rejects the request, `404` that it accepts it and no route matches, and `500` that user
code is at fault.  A route matches when it takes the path and the method that are looked
up: for a method that the switch does not list, that is `GET` (`routingMethod`). -/
structure TellsFaults (client : Client) (w : W) : Prop where
  badRequest : GeneratesStatus regex routes client w .badRequest ↔
    ¬ ∃ request, Decodes client.requestBuffer request
  notFound : GeneratesStatus regex routes client w .notFound ↔
    ∃ request, Decodes client.requestBuffer request ∧
      ∀ route ∈ routes, ¬ route.Matches regex (routingPath request) (routingMethod request.method)
  internalServerError : GeneratesStatus regex routes client w .internalServerError →
    UserFault regex routes client w

variable {regex routes} {client : Client} {w : W}

/-- A response that `process_request` builds itself is the one it prepares. -/
theorem processRequest_of_generates {response : Response}
    (h : Generates regex routes client w response) :
    (processRequest regex routes client w).1 = client.prepareResponse response := by
  have hok : ∀ own client', (respond regex routes client.requestBuffer w).1 = .ok own →
      client.prepareResponse own = .ok client' →
      (processRequest regex routes client w).1 = client.prepareResponse own := by
    intro own client' hown hprepare
    have hbind : (respond regex routes client.requestBuffer w).1.bind client.prepareResponse =
        .ok client' := Cpp.bind_eq_ok.mpr ⟨own, hown, hprepare⟩
    simp only [processRequest, hbind, hprepare]
  cases h with
  | unsplit hsplit hparts =>
      rcases hparts with rfl | rfl
      · exact hok _ _ (by simp only [respond, hsplit]) rfl
      · exact hok _ _ (by simp only [respond, hsplit]) rfl
  | unrouted hdecodes hlookup hnone =>
      refine hok _ _ ?_ rfl
      rw [respond_of_decodes hdecodes]
      simp only [dispatch, hlookup, hnone]
  | caught hcaught => simp only [processRequest, hcaught]

variable (regex routes client w) in
/-- A response that `process_request` does not build itself was returned by a
handler. -/
theorem generates_or_returns :
    (∃ response, Generates regex routes client w response) ∨
      ∃ own, HandlerReturns regex routes client.requestBuffer w own ∧
        (processRequest regex routes client w).1 = client.prepareResponse (withClose own) := by
  cases hbind : (respond regex routes client.requestBuffer w).1.bind client.prepareResponse with
  | error e => exact .inl ⟨_, .caught hbind⟩
  | ok client' =>
      obtain ⟨response, hresponse, hprepare⟩ := Cpp.bind_eq_ok.mp hbind
      have hway := respond_way regex routes client.requestBuffer w
      have hprocess : (processRequest regex routes client w).1 =
          client.prepareResponse response := by
        simp only [processRequest, hbind, hprepare]
      generalize respond regex routes client.requestBuffer w = outcome at hway hresponse
      cases hway with
      | unsplit hsplit hparts => exact .inl ⟨_, .unsplit hsplit hparts⟩
      | rejected _ => cases hresponse
      | unsearched _ _ => cases hresponse
      | unrouted hdecodes hlookup hnone => exact .inl ⟨_, .unrouted hdecodes hlookup hnone⟩
      | dispatched hdispatched =>
          obtain ⟨own, hreturns, rfl⟩ := hdispatched.returns hresponse
          exact .inr ⟨own, hreturns, hprocess⟩

/-! ## The three statuses -/

/-- A ready buffer splits, so there is no `400`. -/
theorem not_generatesStatus_badRequest (hready : client.isRequestReady = true) :
    ¬ GeneratesStatus regex routes client w .badRequest := by
  rintro ⟨response, hgenerates, hstatus⟩
  cases hgenerates with
  | unsplit hsplit hparts =>
      obtain ⟨startLine, headers, body, hsplit'⟩ := splitRequest_of_requestReady hready
      rw [hsplit'] at hsplit
      cases hsplit
      simp at hparts
  | unrouted _ _ _ => exact absurd hstatus (by decide)
  | caught _ => exact absurd hstatus (by decide)

/-- With patterns that compile the search returns. -/
theorem lookupRoute_returns (hcompiles : ∀ route ∈ routes, route.Compiles regex)
    (request : Request) : ∃ found, lookupRoute regex routes request = .ok found := by
  cases noneTakes_or_firstTakes regex (routingPath request) (routingMethod request.method) ∅
    routes with
  | inl hnone => exact ⟨_, findRoute_of_noneTakes hnone hcompiles []⟩
  | inr hfirst =>
      obtain ⟨route, params, hfirst⟩ := hfirst
      exact ⟨_, findRoute_of_firstTakes hfirst hcompiles []⟩

/-- No route matches exactly when the search returns no handler. -/
theorem noneMatches_iff (hhandlers : ∀ route ∈ routes, route.handler ≠ none)
    (hcompiles : ∀ route ∈ routes, route.Compiles regex) (request : Request) :
    (∀ route ∈ routes,
      ¬ route.Matches regex (routingPath request) (routingMethod request.method)) ↔
        ∃ found, lookupRoute regex routes request = .ok found ∧ found.handler = none := by
  cases noneTakes_or_firstTakes regex (routingPath request) (routingMethod request.method) ∅
    routes with
  | inl hnone =>
      refine iff_of_true (fun route hroute hmatches => ?_)
        ⟨_, findRoute_of_noneTakes hnone hcompiles [], rfl⟩
      obtain ⟨params, htakes⟩ := Route.exists_takes_iff.mpr hmatches
      exact hnone route hroute params htakes
  | inr hfirst =>
      obtain ⟨route, params, hfirst⟩ := hfirst
      have hlookup : lookupRoute regex routes request = _ :=
        findRoute_of_firstTakes hfirst hcompiles []
      have hroute : route ∈ routes := hfirst.mem.1
      obtain ⟨_, _, -, htakes, -⟩ := hfirst
      refine iff_of_false (fun h => h route hroute (Route.exists_takes_iff.mp ⟨params, htakes⟩)) ?_
      rintro ⟨found, hlookup', hnone⟩
      obtain rfl := Except.ok.inj (hlookup.symm.trans hlookup')
      exact hhandlers route hroute hnone

/-- A `404` means that no route matches. -/
theorem generatesStatus_notFound_iff (hhandlers : ∀ route ∈ routes, route.handler ≠ none)
    (hcompiles : ∀ route ∈ routes, route.Compiles regex) :
    GeneratesStatus regex routes client w .notFound ↔
      ∃ request, Decodes client.requestBuffer request ∧ ∀ route ∈ routes,
        ¬ route.Matches regex (routingPath request) (routingMethod request.method) := by
  have hnone := noneMatches_iff hhandlers hcompiles
  constructor
  · rintro ⟨response, hgenerates, hstatus⟩
    cases hgenerates with
    | unsplit _ _ => exact absurd hstatus (by decide)
    | unrouted hdecodes hlookup hno => exact ⟨_, hdecodes, (hnone _).mpr ⟨_, hlookup, hno⟩⟩
    | caught _ => exact absurd hstatus (by decide)
  · rintro ⟨request, hdecodes, hno⟩
    obtain ⟨found, hlookup, hfound⟩ := (hnone request).mp hno
    exact ⟨notFound, .unrouted hdecodes hlookup hfound, rfl⟩

/-- A response that cannot be stored cannot be printed. -/
theorem toRawResponse_of_prepareResponse {response : Response} {e : Exn}
    (h : client.prepareResponse response = .error e) :
    ∃ e', response.toRawResponse = .error e' := by
  cases hraw : response.toRawResponse with
  | error e' => exact ⟨e', rfl⟩
  | ok raw =>
      rw [Client.prepareResponse_eq_ok_iff.mpr ⟨raw, hraw, rfl⟩] at h
      cases h

/-- Behind the search only user code throws, and printing what the handler returned. -/
theorem Dispatched.userFault {request : Request} {found : Found W} {handler : Handler W}
    (h : Dispatched regex routes client.requestBuffer request found handler) {e : Exn}
    (hcaught : (runHandler request found.outParams found.outMiddleware handler w).1.bind
      client.prepareResponse = .error e) : UserFault regex routes client w := by
  rcases passes_or_throws found.outMiddleware (some (attachParams request found.outParams)) w with
    ⟨calls, ptr, w', hpasses⟩ | ⟨passed, mw, rest, calls, ptr, w', e', w'', hmws, hpasses, hthrows⟩
  · cases hhandler : handler ptr w' with
    | mk outcome w'' =>
        cases outcome with
        | error e' => exact .handler h hpasses hhandler
        | ok own =>
            rw [runHandler, runMiddleware_of_passes hpasses] at hcaught
            simp only [hhandler] at hcaught
            obtain ⟨e', hraw⟩ := toRawResponse_of_prepareResponse hcaught
            exact .printing ⟨request, found, handler, calls, ptr, w', w'', h.decodes, h.lookup,
              h.handler, hpasses, hhandler⟩ hraw
  · exact .middleware h hmws hpasses hthrows

/-- For a request that is accepted, an exception comes from user code or from printing
what the handler returned. -/
theorem userFault_of_generatesStatus (hcompiles : ∀ route ∈ routes, route.Compiles regex)
    (hdecodes : ∃ request, Decodes client.requestBuffer request)
    (h : GeneratesStatus regex routes client w .internalServerError) :
    UserFault regex routes client w := by
  obtain ⟨response, hgenerates, hstatus⟩ := h
  cases hgenerates with
  | unsplit _ _ => exact absurd hstatus (by decide)
  | unrouted _ _ _ => exact absurd hstatus (by decide)
  | caught hcaught =>
      have hway := respond_way regex routes client.requestBuffer w
      generalize respond regex routes client.requestBuffer w = outcome at hway hcaught
      cases hway with
      | unsplit _ _ => cases hcaught
      | rejected hrejected => exact absurd hdecodes hrejected
      | @unsearched request _ _ hlookup =>
          obtain ⟨found, hfound⟩ := lookupRoute_returns hcompiles request
          rw [hfound] at hlookup
          cases hlookup
      | unrouted _ _ _ => cases hcaught
      | dispatched hdispatched => exact hdispatched.userFault hcaught

/-! ## Accepted requests -/

/-- A ready buffer makes up a request when its first line is accepted. -/
theorem exists_decodes_iff (hready : client.isRequestReady = true) :
    (∃ request, Decodes client.requestBuffer request) ↔
      ∃ firstCrlf, find [cr, lf] client.requestBuffer = some firstCrlf ∧
        AcceptedStartLine (client.requestBuffer.take firstCrlf) := by
  obtain ⟨headersEnd, hend⟩ := exists_find_of_requestReady hready
  obtain ⟨firstCrlf, hfirst⟩ := exists_find_lineEnd hend
  have hsplit := splitRequest_of_find hfirst hend
  constructor
  · rintro ⟨request, startLine, headers, body, hsplit', hmake⟩
    obtain ⟨rfl, -, -⟩ := Parts.parts.inj (Except.ok.inj (hsplit.symm.trans hsplit'))
    exact ⟨firstCrlf, hfirst, Request.exists_make_iff.mp ⟨request, hmake⟩⟩
  · rintro ⟨firstCrlf', hfirst', haccepted⟩
    obtain rfl := Option.some.inj (hfirst.symm.trans hfirst')
    obtain ⟨request, hmake⟩ := Request.exists_make_iff.mpr haccepted
    exact ⟨request, _, _, _, hsplit, hmake⟩

/-- For a ready buffer and a table without null handlers whose patterns compile, the
status says whose fault an error is exactly when the first line of the request is
accepted. -/
theorem tellsFaults_iff (hready : client.isRequestReady = true)
    (hhandlers : ∀ route ∈ routes, route.handler ≠ none)
    (hcompiles : ∀ route ∈ routes, route.Compiles regex) :
    TellsFaults regex routes client w ↔
      ∃ firstCrlf, find [cr, lf] client.requestBuffer = some firstCrlf ∧
        AcceptedStartLine (client.requestBuffer.take firstCrlf) := by
  rw [← exists_decodes_iff hready]
  constructor
  · intro h
    by_contra hno
    exact not_generatesStatus_badRequest hready (h.badRequest.mpr hno)
  · intro hdecodes
    exact ⟨iff_of_false (not_generatesStatus_badRequest hready) (not_not_intro hdecodes),
      generatesStatus_notFound_iff hhandlers hcompiles,
      userFault_of_generatesStatus hcompiles hdecodes⟩

theorem tellsFaults_get : TellsFaults starEngine (oneRoute (ascii "GET"))
    (clientWith (bareRequest .get)) () := by
  refine (tellsFaults_iff (by decide) (by simp [oneRoute]) fun _ _ _ => ⟨_, rfl⟩).mpr ?_
  exact ⟨14, by decide, ⟨.get, by decide⟩, ⟨_, rfl⟩, ⟨.http11, by decide⟩⟩

/-- A method that does not exist is answered like an exception of user code, and no
user code has run. -/
theorem not_tellsFaults_brew :
    let client := clientWith (ascii "BREW / HTTP/1.1\r\n\r\n")
    client.isRequestReady = true ∧
    Generates starEngine (oneRoute (ascii "GET")) client () internalServerError ∧
    (processRequest starEngine (oneRoute (ascii "GET")) client ()).2.2 = [] ∧
    ¬ TellsFaults starEngine (oneRoute (ascii "GET")) client () := by
  intro client
  have hready : client.isRequestReady = true := by decide
  refine ⟨hready, .caught rfl, rfl, fun h => ?_⟩
  have hrejected : ¬ ∃ request, Decodes client.requestBuffer request := by
    rw [exists_decodes_iff hready]
    rintro ⟨firstCrlf, hfirst, haccepted⟩
    obtain rfl : 15 = firstCrlf := Option.some.inj hfirst
    obtain ⟨method, hmethod⟩ := haccepted.method
    revert hmethod
    cases method <;> decide
  exact not_generatesStatus_badRequest hready (h.badRequest.mpr hrejected)

end Fion.Network
