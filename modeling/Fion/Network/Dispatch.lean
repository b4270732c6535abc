import Fion.FirstMatch
import Fion.Http.OriginForm
import Fion.Network.Framing
import Fion.Network.Pool

/-!
# What user code gets

The `try` block of `process_request` takes one of five ways, and user code runs on
one of them (`respond_way`).  There it has taken, from a decoded request, the path
and the method it looks a route up with, and the request object it hands to the
middleware and the handler of that route.  Each of the three is what the peer asked
for under a condition, and only then.

* The body is everything behind the empty line.  It is as long as its length
  line says when nothing follows it in the buffer (`body_of_first_call_iff`).
* The path is the one in front of the query and the fragment when `"://"` occurs
  nowhere in the target (`routed_by_own_path_iff`).
* The method is the method of the request when it is one of the four that the
  switch lists (`methodFidelity_iff`).
-/

namespace Fion.Network

open Cpp (Bytes Exn ascii chr cr lf)
open Text (find)
open Http (Request Response Method URL StringMap)

variable {W : Type}

/-! ## The ways through the `try` block -/

section Ways

variable (regex : RegexEngine) (routes : List (Route W))

/-- The request in the data is given to a handler that the search finds for it. -/
structure Dispatched (requestData : Bytes) (request : Request) (found : Found W)
    (handler : Handler W) : Prop where
  decodes : Decodes requestData request
  lookup : lookupRoute regex routes request = .ok found
  handler : found.handler = some handler

/-- The ways through the `try` block up to a response, each with what it yields. -/
inductive Way (requestData : Bytes) (w : W) : Except Exn Response × W × List (Call W) → Prop where
  | unsplit {parts : Parts} :
      splitRequest requestData = .ok parts →
      parts = .noStartLine ∨ parts = .noHeadersEnd →
      Way requestData w (.ok badRequest, w, [])
  | rejected {e : Exn} :
      (¬ ∃ request, Decodes requestData request) →
      Way requestData w (.error e, w, [])
  | unsearched {request : Request} {e : Exn} :
      Decodes requestData request →
      lookupRoute regex routes request = .error e →
      Way requestData w (.error e, w, [])
  | unrouted {request : Request} {found : Found W} :
      Decodes requestData request →
      lookupRoute regex routes request = .ok found →
      found.handler = none →
      Way requestData w (.ok notFound, w, [])
  | dispatched {request : Request} {found : Found W} {handler : Handler W} :
      Dispatched regex routes requestData request found handler →
      Way requestData w (runHandler request found.outParams found.outMiddleware handler w)

/-- The `try` block takes one of the ways. -/
theorem respond_way (requestData : Bytes) (w : W) :
    Way regex routes requestData w (respond regex routes requestData w) := by
  by_cases hdecodes : ∃ request, Decodes requestData request
  · obtain ⟨request, hdecodes⟩ := hdecodes
    rw [respond_of_decodes hdecodes, dispatch]
    split
    · next e hlookup => exact .unsearched hdecodes hlookup
    · next found hlookup =>
        split
        · next handler hhandler => exact .dispatched ⟨hdecodes, hlookup, hhandler⟩
        · next hnone => exact .unrouted hdecodes hlookup hnone
  · rw [respond]
    split
    · exact .rejected hdecodes
    · next startLine headers body hsplit =>
        split
        · exact .rejected hdecodes
        · next request hmake => exact absurd ⟨request, _, _, _, hsplit, hmake⟩ hdecodes
    · next parts hno hsplit =>
        refine .unsplit hsplit ?_
        cases parts with
        | noStartLine => exact .inl rfl
        | noHeadersEnd => exact .inr rfl
        | parts startLine headers body => exact absurd rfl (hno startLine headers body)

end Ways

variable {regex : RegexEngine} {routes : List (Route W)}

/-! ## The calls of a request -/

/-- The request pointer a run of user code was given. -/
def Call.request : Call W → RequestPtr
  | .middleware _ request => request
  | .handler _ request => request

/-- The calls of `process_request` are those of its `try` block. -/
theorem processRequest_calls (client : Client) (w : W) :
    (processRequest regex routes client w).2.2 =
      (respond regex routes client.requestBuffer w).2.2 := by
  unfold processRequest
  cases respond regex routes client.requestBuffer w with
  | mk outcome rest =>
      simp only
      split <;> rfl

/-- The middleware loop runs no handler. -/
theorem handler_not_mem_runMiddleware {handler : Handler W} {ptr : RequestPtr}
    (mws : List (Middleware W)) (reqPtr : RequestPtr) (w : W) :
    Call.handler handler ptr ∉ (runMiddleware reqPtr w mws).2.2 := by
  induction mws generalizing reqPtr w with
  | nil => simp [runMiddleware]
  | cons mw rest ih =>
      rw [runMiddleware]
      split
      · simp
      · next reqPtr' w' _ =>
          simp only [List.mem_cons, reduceCtorEq, false_or]
          exact ih reqPtr' w'

/-- The handler that runs is the one that was found. -/
theorem eq_of_handler_mem_runHandler {request : Request} {params : StringMap}
    {mws : List (Middleware W)} {handler handler' : Handler W} {ptr : RequestPtr} {w : W}
    (h : Call.handler handler' ptr ∈ (runHandler request params mws handler w).2.2) :
    handler' = handler := by
  have hmws : Call.handler handler' ptr ∉
      (runMiddleware (some (attachParams request params)) w mws).2.2 :=
    handler_not_mem_runMiddleware mws _ w
  rw [runHandler] at h
  split at h
  · next heq =>
      rw [heq] at hmws
      exact absurd h hmws
  · next heq =>
      rw [heq] at hmws
      rcases List.mem_append.mp h with hmem | hmem
      · exact absurd hmem hmws
      · exact (Call.handler.inj (List.mem_singleton.mp hmem)).1

/-- A handler that runs belongs to a route of the table with the method that was
looked up. -/
theorem handler_mem_dispatch {request : Request} {handler : Handler W} {ptr : RequestPtr} {w : W}
    (h : Call.handler handler ptr ∈ (dispatch regex routes request w).2.2) :
    ∃ route ∈ routes, route.method = routingMethod request.method ∧
      route.handler = some handler := by
  rw [dispatch] at h
  split at h
  · simp at h
  · next found hlookup =>
      split at h
      · next handler' hhandler =>
          rw [eq_of_handler_mem_runHandler h]
          obtain ⟨route, params, hfirst, rfl⟩ := firstTakes_of_findRoute hlookup hhandler
          exact ⟨route, hfirst.mem.1, hfirst.mem.2, hhandler⟩
      · simp at h

/-- The first middleware runs first. -/
theorem exists_runMiddleware_cons (mw : Middleware W) (rest : List (Middleware W))
    (reqPtr : RequestPtr) (w : W) :
    ∃ calls, (runMiddleware reqPtr w (mw :: rest)).2.2 = .middleware mw reqPtr :: calls := by
  unfold runMiddleware
  split
  · exact ⟨[], rfl⟩
  · exact ⟨_, rfl⟩

/-- Something runs in every case, and gets the request with the captured parameters
attached first. -/
theorem exists_runHandler_cons (request : Request) (params : StringMap)
    (mws : List (Middleware W)) (handler : Handler W) (w : W) :
    ∃ call calls, (runHandler request params mws handler w).2.2 = call :: calls ∧
      call.request = some (attachParams request params) := by
  cases mws with
  | nil => exact ⟨.handler handler _, [], rfl, rfl⟩
  | cons mw rest =>
      obtain ⟨calls, hcalls⟩ :=
        exists_runMiddleware_cons mw rest (some (attachParams request params)) w
      unfold runHandler
      split
      · next heq =>
          rw [heq] at hcalls
          exact ⟨_, calls, hcalls, rfl⟩
      · next reqPtr w' _ heq =>
          rw [heq] at hcalls
          exact ⟨_, calls ++ [.handler handler reqPtr], congrArg (· ++ _) hcalls, rfl⟩

/-- The first piece of user code gets the request with the captured parameters
attached. -/
theorem request_of_first_call {request : Request} {w : W} {call : Call W}
    (h : (dispatch regex routes request w).2.2.head? = some call) :
    ∃ params, call.request = some (attachParams request params) := by
  rw [dispatch] at h
  split at h
  · simp at h
  · next found _ =>
      split at h
      · next handler _ =>
          obtain ⟨call', calls, hcalls, hrequest⟩ :=
            exists_runHandler_cons request found.outParams found.outMiddleware handler w
          rw [hcalls] at h
          exact ⟨found.outParams, Option.some.inj h ▸ hrequest⟩
      · simp at h

/-! ## Bodies -/

/-- The body of a decoded request is everything behind the empty line. -/
theorem body_of_decodes {requestData : Bytes} {request : Request}
    (h : Decodes requestData request) {headersEnd : Nat}
    (hend : find [cr, lf, cr, lf] requestData = some headersEnd) :
    request.body = requestData.drop (headersEnd + 4) := by
  obtain ⟨startLine, headers, body, hsplit, hmake⟩ := h
  obtain ⟨firstCrlf, hfirst⟩ := exists_find_lineEnd hend
  rw [splitRequest_of_find hfirst hend] at hsplit
  obtain ⟨rfl, rfl, rfl⟩ := Parts.parts.inj (Except.ok.inj hsplit)
  unfold Request.make at hmake
  obtain ⟨⟨method, url, version⟩, -, h⟩ := Cpp.bind_eq_ok.mp hmake
  obtain rfl := Except.ok.inj h
  rfl

/-- A complete request whose length line says `n`: the body that user code gets is
the `n` bytes behind the empty line exactly when nothing follows them in the
buffer. -/
theorem body_of_first_call_iff {requestData : Bytes} {headersEnd pos n size : Nat}
    (hready : requestReady requestData = true)
    (hend : find [cr, lf, cr, lf] requestData = some headersEnd)
    (hpos : find (ascii "Content-Length:") requestData = some pos)
    (hline : LengthLine (requestData.drop pos) n size)
    {request : Request} (hrequest : Decodes requestData request) {client : Client}
    (hclient : client.requestBuffer = requestData) {w : W} {call : Call W}
    (hcall : (processRequest regex routes client w).2.2.head? = some call) :
    (∃ r, call.request = some r ∧ r.body = (requestData.drop (headersEnd + 4)).take n) ↔
      requestData.length = headersEnd + 4 + n := by
  have hlong := Text.find_le (by simp) hend
  have hn := (requestReady_of_lengthLine hend hpos hline).mp hready
  simp only [List.length_cons, List.length_nil] at hlong
  rw [processRequest_calls, hclient, respond_of_decodes hrequest] at hcall
  obtain ⟨params, hptr⟩ := request_of_first_call hcall
  have hbody : (attachParams request params).body = requestData.drop (headersEnd + 4) :=
    body_of_decodes hrequest hend
  constructor
  · rintro ⟨r, hr, htake⟩
    obtain rfl := Option.some.inj (hptr.symm.trans hr)
    have hlen := congrArg List.length (hbody.symm.trans htake)
    rw [List.length_take, List.length_drop] at hlen
    omega
  · intro hlen
    refine ⟨attachParams request params, hptr, ?_⟩
    rw [hbody, List.take_of_length_le]
    rw [List.length_drop]
    omega

/-- An engine for patterns that are a plain text with `.*` behind it. -/
def starEngine : RegexEngine := fun pattern =>
  .ok fun path => if (pattern.take (pattern.length - 2)).isPrefixOf path then some [] else none

/-- A table with one route, for one method and every path. -/
def oneRoute (method : Bytes) : List (Route Unit) :=
  [{ pathPattern := ascii ".*", method := method, handler := some fun _ w => (.ok {}, w)
     isRegex := true }]

/-- The data of a request for `/` with a body of two bytes, and what follows it. -/
def putRequest (trailing : String) : Bytes :=
  ascii ("PUT / HTTP/1.1\r\nContent-Length: 2\r\n\r\nhi" ++ trailing)

/-- The connection that data has arrived on. -/
def clientWith (requestData : Bytes) : Client :=
  { fd := 3, requestBuffer := requestData, state := .processing }

theorem body_of_put : ∃ call r,
    (processRequest starEngine (oneRoute (ascii "PUT")) (clientWith (putRequest ""))
      ()).2.2.head? = some call ∧
    call.request = some r ∧ r.body = ((putRequest "").drop (33 + 4)).take 2 := by
  have hline : LengthLine ((putRequest "").drop 16) 2 17 :=
    ⟨ascii " ", ascii "2", ascii "\r\nhi", by decide, List.all_eq_true.mp (by decide), by decide,
      List.all_eq_true.mp (by decide), by decide, by decide, by decide⟩
  obtain ⟨request, hdecodes⟩ : ∃ request, Decodes (putRequest "") request :=
    ⟨_, _, _, _, rfl, rfl⟩
  obtain ⟨call, hcall⟩ : ∃ call, (processRequest starEngine (oneRoute (ascii "PUT"))
      (clientWith (putRequest "")) ()).2.2.head? = some call := ⟨_, rfl⟩
  have hend : find [cr, lf, cr, lf] (putRequest "") = some 33 := by decide
  obtain ⟨r, hr, hbody⟩ := (body_of_first_call_iff (by decide) hend (by decide) hline hdecodes rfl
    hcall).mpr (by decide)
  exact ⟨call, r, hcall, hr, hbody⟩

/-- With a second request in the same buffer, the body is longer than its length
line says. -/
theorem body_of_put_with_trailing :
    requestReady (putRequest "GET") = true ∧
    ((processRequest starEngine (oneRoute (ascii "PUT")) (clientWith (putRequest "GET"))
      ()).2.2.head?.bind Call.request).map (·.body) ≠
        some (((putRequest "GET").drop (33 + 4)).take 2) := by
  decide

/-! ## Targets -/

/-- A target in origin form is read by its own path, and its request is routed by
that path, exactly when `"://"` occurs nowhere in the target. -/
theorem routed_by_own_path_iff {raw : Bytes} (hslash : raw.head? = some (chr '/')) :
    (Http.OwnPath raw ∧
      ∀ request : Request, URL.parse raw = .ok request.url →
        routingPath request = Http.pathPart raw) ↔
    find (ascii "://") raw = none := by
  rw [← Http.ownPath_iff hslash, and_iff_left_iff_imp]
  rintro ⟨u, hparse, -, -, -, hpath, -⟩ request hrequest
  rw [hparse] at hrequest
  rw [routingPath, ← Except.ok.inj hrequest]
  exact hpath

theorem own_path_of_query : Http.OwnPath (ascii "/r?next=/home#top") :=
  ((routed_by_own_path_iff rfl).mpr (by decide)).1

/-- A redirect target in the query is taken for an authority. -/
theorem not_own_path_of_redirect : ¬ Http.OwnPath (ascii "/r?u=http://x") := by
  rintro ⟨u, hparse, hscheme, -⟩
  have hne : (URL.parse (ascii "/r?u=http://x")).map (·.scheme) ≠ .ok [] := by decide
  rw [hparse] at hne
  exact hne (congrArg Except.ok hscheme)

/-! ## Methods -/

/-- Dispatch is faithful to a method: for every table whose patterns compile, only
handlers that are registered for the method run, and the first route of the
method that matches the path is the one that is taken. -/
def MethodFidelity (m : Method) : Prop :=
  ∀ (W : Type) (regex : RegexEngine) (routes : List (Route W)) (client : Client) (w : W)
    (request : Request), (∀ route ∈ routes, route.Compiles regex) →
    Decodes client.requestBuffer request → request.method = m →
    (∀ handler ptr, Call.handler handler ptr ∈ (processRequest regex routes client w).2.2 →
      ∃ route ∈ routes, route.method = m.name ∧ route.handler = some handler) ∧
    ∀ route handler, FirstMatch regex routes (routingPath request) m.name route →
      route.handler = some handler →
      ∃ params, respond regex routes client.requestBuffer w =
        runHandler request params route.middleware handler w

/-- The switch keeps four of the methods and turns the others into `GET`. -/
theorem routingMethod_eq_name_iff (m : Method) :
    routingMethod m = m.name ↔ m = .get ∨ m = .post ∨ m = .put ∨ m = .delete := by
  cases m <;> decide

/-- A method that the switch keeps is dispatched faithfully. -/
theorem methodFidelity_of_routingMethod {m : Method} (h : routingMethod m = m.name) :
    MethodFidelity m := by
  rintro W regex routes client w request hcompiles hdecodes rfl
  constructor
  · intro handler ptr hmem
    rw [processRequest_calls, respond_of_decodes hdecodes] at hmem
    rw [← h]
    exact handler_mem_dispatch hmem
  · intro route handler hmatch hhandler
    rw [← h] at hmatch
    obtain ⟨params, hfirst⟩ := hmatch.exists_firstTakes ∅
    refine ⟨params, ?_⟩
    rw [respond_of_decodes hdecodes]
    simp only [dispatch, lookupRoute, findRoute_of_firstTakes hfirst hcompiles, hhandler]

/-- A request for `/` and the method. -/
def bareRequest (m : Method) : Bytes := m.name ++ ascii " / HTTP/1.1\r\n\r\n"

/-- A method that the switch turns into `GET` runs the handler of a `GET` route. -/
theorem handler_of_get_route {m : Method} (h : routingMethod m ≠ m.name) :
    ∃ handler ptr, Call.handler handler ptr ∈
      (processRequest starEngine (oneRoute (ascii "GET")) (clientWith (bareRequest m)) ()).2.2 := by
  cases m with
  | get | post | put | delete => exact absurd rfl h
  | head | connect | options | trace | patch => exact ⟨_, _, List.mem_singleton.mpr rfl⟩

/-- Dispatch is faithful to a method exactly when it is one of the four that the
switch lists. -/
theorem methodFidelity_iff (m : Method) :
    MethodFidelity m ↔ m = .get ∨ m = .post ∨ m = .put ∨ m = .delete := by
  rw [← routingMethod_eq_name_iff]
  refine ⟨fun hfidelity => ?_, methodFidelity_of_routingMethod⟩
  by_contra hname
  obtain ⟨handler, ptr, hmem⟩ := handler_of_get_route hname
  have hdecodes : ∃ request, Decodes (bareRequest m) request ∧ request.method = m := by
    cases m <;> exact ⟨_, ⟨_, _, _, rfl, rfl⟩, rfl⟩
  obtain ⟨request, hdecodes, hmethod⟩ := hdecodes
  obtain ⟨route, hroute, hown, -⟩ :=
    (hfidelity Unit starEngine (oneRoute (ascii "GET")) _ () request
      (fun _ _ _ => ⟨_, rfl⟩) hdecodes hmethod).1 handler ptr hmem
  obtain rfl := List.mem_singleton.mp hroute
  cases m <;> revert hown hname <;> decide

/-- A `HEAD` request runs the handler of a `GET` route. -/
theorem head_runs_get_handler :
    (∃ handler ptr, Call.handler handler ptr ∈
      (processRequest starEngine (oneRoute (ascii "GET")) (clientWith (bareRequest .head))
        ()).2.2) ∧
    ∀ route ∈ oneRoute (ascii "GET"), route.method ≠ Method.head.name := by
  refine ⟨⟨_, _, List.mem_singleton.mpr rfl⟩, fun route hroute => ?_⟩
  obtain rfl := List.mem_singleton.mp hroute
  decide

end Fion.Network
