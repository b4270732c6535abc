import Fion.Network.Guards
import Fion.Network.PoolSteps

/-!
# One answer per request

`process_request` catches every exception and prepares a response in each case, so
what it leaves in the response buffer is one printed response.  Whether an exception
was thrown before or while the response was printed makes no difference, since
`prepareResponse` stores nothing when printing throws.

A buffer that is ready splits (`splitRequest_of_requestReady`), so the two answers
without a `Connection` header are out of reach, and `processRequest_answers` says
which response it is: the handler's own one if the handler returned one that prints,
and one of two fixed ones else.
-/

namespace Fion.Network

open Cpp (Bytes Exn ascii cr lf)
open Text (find)
open Http (Request Response)

variable {W : Type} {regex : RegexEngine} {routes : List (Route W)}

/-! ## Ready buffers -/

/-- A ready buffer has an empty line. -/
theorem exists_find_of_requestReady {data : Bytes} (h : requestReady data = true) :
    ∃ headersEnd, find [cr, lf, cr, lf] data = some headersEnd := by
  cases hfind : find [cr, lf, cr, lf] data with
  | none =>
      rw [requestReady_of_find_none hfind] at h
      cases h
  | some headersEnd => exact ⟨headersEnd, rfl⟩

/-- A ready buffer splits into the three parts of a request. -/
theorem splitRequest_of_requestReady {data : Bytes} (h : requestReady data = true) :
    ∃ startLine headers body, splitRequest data = .ok (.parts startLine headers body) := by
  obtain ⟨headersEnd, hend⟩ := exists_find_of_requestReady h
  obtain ⟨firstCrlf, hfirst⟩ := exists_find_lineEnd hend
  exact ⟨_, _, _, splitRequest_of_find hfirst hend⟩

/-! ## Responses -/

/-- The response asks for the connection to be closed. -/
def Closes (response : Response) : Prop :=
  response.headers[ascii "Connection"]? = some (ascii "close")

/-- A response as `process_request` sends it. -/
def withClose (response : Response) : Response :=
  response.setHeader (ascii "Connection") (ascii "close")

theorem closes_withClose (response : Response) : Closes (withClose response) :=
  Std.ExtTreeMap.getElem?_insert_self

theorem closes_notFound : Closes notFound := closes_withClose _

theorem closes_internalServerError : Closes internalServerError := closes_withClose _

/-- The search finds a handler for the request, the middleware it finds returns, and
the handler returns `response`. -/
def HandlerReturns (regex : RegexEngine) (routes : List (Route W)) (requestData : Bytes) (w : W)
    (response : Response) : Prop :=
  ∃ request found handler calls ptr w' w'', Decodes requestData request ∧
    lookupRoute regex routes request = .ok found ∧ found.handler = some handler ∧
    Passes (some (attachParams request found.outParams)) w found.outMiddleware calls ptr w' ∧
    handler ptr w' = (.ok response, w'')

/-- The `try` block yields the response that the handler returned. -/
theorem respond_of_handlerReturns {requestData : Bytes} {w : W} {response : Response}
    (h : HandlerReturns regex routes requestData w response) :
    (respond regex routes requestData w).1 = .ok (withClose response) := by
  obtain ⟨request, found, handler, calls, ptr, w', w'', hdecodes, hlookup, hhandler, hpasses,
    hreturns⟩ := h
  rw [respond_of_decodes hdecodes]
  simp only [dispatch, hlookup, hhandler, runHandler, runMiddleware_of_passes hpasses, hreturns]
  rfl

/-- What the branch with a handler yields was returned by the handler. -/
theorem returns_of_runHandler {request : Request} {found : Found W} {handler : Handler W} {w : W}
    {response : Response}
    (h : (runHandler request found.outParams found.outMiddleware handler w).1 = .ok response) :
    ∃ calls ptr w' w'' own,
      Passes (some (attachParams request found.outParams)) w found.outMiddleware calls ptr w' ∧
      handler ptr w' = (.ok own, w'') ∧ response = withClose own := by
  rcases passes_or_throws found.outMiddleware (some (attachParams request found.outParams)) w with
    ⟨calls, ptr, w', hpasses⟩ | ⟨passed, mw, rest, calls, ptr, w', e, w'', hmws, hpasses, hthrows⟩
  · rw [runHandler, runMiddleware_of_passes hpasses] at h
    cases hreturns : handler ptr w' with
    | mk outcome w'' =>
        simp only [hreturns] at h
        cases outcome with
        | error e => cases h
        | ok own => exact ⟨calls, ptr, w', w'', own, hpasses, hreturns, (Except.ok.inj h).symm⟩
  · rw [runHandler, hmws, runMiddleware_of_throws hpasses hthrows] at h
    cases h

/-- What the branch with a handler yields without an exception was returned by the
handler. -/
theorem Dispatched.returns {requestData : Bytes} {request : Request} {found : Found W}
    {handler : Handler W} (h : Dispatched regex routes requestData request found handler)
    {response : Response}
    (hresponse : (runHandler request found.outParams found.outMiddleware handler w).1 =
      .ok response) :
    ∃ own, HandlerReturns regex routes requestData w own ∧ response = withClose own := by
  obtain ⟨calls, ptr, w', w'', own, hpasses, hreturns, heq⟩ := returns_of_runHandler hresponse
  exact ⟨own, ⟨request, found, handler, calls, ptr, w', w'', h.decodes, h.lookup, h.handler,
    hpasses, hreturns⟩, heq⟩

/-- What the `try` block yields for data that splits is the handler's response or the
one for an unknown route. -/
theorem handlerReturns_of_respond {requestData startLine headers body : Bytes}
    (hsplit : splitRequest requestData = .ok (.parts startLine headers body)) {w : W}
    {response : Response} (h : (respond regex routes requestData w).1 = .ok response) :
    (∃ own, HandlerReturns regex routes requestData w own ∧ response = withClose own) ∨
      response = notFound := by
  have hway := respond_way regex routes requestData w
  generalize respond regex routes requestData w = outcome at hway h
  cases hway with
  | unsplit hnone hparts =>
      rw [hsplit] at hnone
      cases hnone
      simp at hparts
  | rejected _ => cases h
  | unsearched _ _ => cases h
  | unrouted _ _ _ => exact .inr (Except.ok.inj h).symm
  | dispatched hdispatched => exact .inl (hdispatched.returns h)

/-! ## The answer -/

/-- A ready buffer is answered with one printed response that closes the connection,
and no exception escapes.  It is the handler's own response if the handler returned
one that prints, and one of the two fixed ones else. -/
theorem processRequest_answers (regex : RegexEngine) (routes : List (Route W)) {client : Client}
    (hready : client.isRequestReady = true) (w : W) :
    (∃ startLine headers body,
      splitRequest client.requestBuffer = .ok (.parts startLine headers body)) ∧
    ∃ response raw w' calls, response.toRawResponse = .ok raw ∧ Closes response ∧
      processRequest regex routes client w = (.ok (client.setResponse raw), w', calls) ∧
      ((∃ own, HandlerReturns regex routes client.requestBuffer w own ∧
          response = withClose own) ∨
        (response = notFound ∨ response = internalServerError) ∧
          ∀ own raw', HandlerReturns regex routes client.requestBuffer w own →
            (withClose own).toRawResponse ≠ .ok raw') := by
  obtain ⟨startLine, headers, body, hsplit⟩ := splitRequest_of_requestReady hready
  refine ⟨⟨startLine, headers, body, hsplit⟩, ?_⟩
  obtain ⟨response, raw, w', calls, hraw, hprocess, hresponse⟩ :=
    processRequest_cases regex routes client w
  refine ⟨response, raw, w', calls, hraw, ?_, hprocess, ?_⟩
  · rcases hresponse with hown | ⟨rfl, -⟩
    · rcases handlerReturns_of_respond hsplit hown with ⟨own, -, rfl⟩ | rfl
      · exact closes_withClose own
      · exact closes_notFound
    · exact closes_internalServerError
  · by_cases hreturns : ∃ own, HandlerReturns regex routes client.requestBuffer w own
    · obtain ⟨own, hreturns⟩ := hreturns
      have hrespond := respond_of_handlerReturns hreturns
      rcases hresponse with hown | ⟨rfl, hno⟩
      · exact .inl ⟨own, hreturns, Except.ok.inj (hown.symm.trans hrespond)⟩
      · exact .inr ⟨.inr rfl, fun own' raw' hreturns' =>
          hno (withClose own') raw' (respond_of_handlerReturns hreturns')⟩
    · refine .inr ⟨?_, fun own raw' hown => absurd ⟨own, hown⟩ hreturns⟩
      rcases hresponse with hown | ⟨rfl, -⟩
      · rcases handlerReturns_of_respond hsplit hown with ⟨own, hown', -⟩ | rfl
        · exact absurd ⟨own, hown'⟩ hreturns
        · exact .inl rfl
      · exact .inr rfl

theorem bareRequest_answered : ∃ response raw w' calls,
    response.toRawResponse = .ok raw ∧ Closes response ∧
    processRequest starEngine (oneRoute (ascii "GET")) (clientWith (bareRequest .get)) () =
      (.ok ((clientWith (bareRequest .get)).setResponse raw), w', calls) := by
  have hready : (clientWith (bareRequest .get)).isRequestReady = true := by decide
  obtain ⟨-, response, raw, w', calls, hraw, hcloses, hprocess, -⟩ :=
    processRequest_answers starEngine (oneRoute (ascii "GET")) hready ()
  exact ⟨response, raw, w', calls, hraw, hcloses, hprocess⟩

end Fion.Network
