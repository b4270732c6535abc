import Fion.Network.Guards

/-!
# Captured parameters

What a route captures is handed over in the headers of the request, under names that
begin with `x-param-`.  The request keeps the headers the peer sent, so a header of
that kind is a captured parameter or one that the peer sent under a name that no
parameter has (`getElem?_attachParams`).

So the `x-param-` headers are exactly the captures as long as the peer sends none
that the route does not capture, and only then (`params_of_first_call_iff`).
-/

namespace Fion.Network

open Cpp (Bytes ascii)
open Http (Request Headers StringMap)

variable {W : Type} {regex : RegexEngine} {routes : List (Route W)}

/-- The name of the header for a parameter. -/
def paramHeader (key : Bytes) : Bytes := ascii "x-param-" ++ key

theorem paramHeader_inj {key key' : Bytes} (h : paramHeader key = paramHeader key') : key = key' :=
  List.append_cancel_left h

/-- The loop over the parameters lays them over the headers. -/
theorem headers_attachParams (request : Request) (params : StringMap) :
    (attachParams request params).headers =
      request.headers.insertMany (params.toList.map fun kv => (paramHeader kv.1, kv.2)) := by
  rw [Std.ExtTreeMap.insertMany_list_eq_foldl, List.foldl_map]
  rfl

/-- Parameters have different names, and so have their headers. -/
theorem nodup_paramHeaders (params : StringMap) :
    ((params.toList.map fun kv => (paramHeader kv.1, kv.2)).map Prod.fst).Nodup := by
  have hheaders : (params.toList.map fun kv => (paramHeader kv.1, kv.2)).map Prod.fst =
      (params.toList.map Prod.fst).map paramHeader := by
    rw [List.map_map, List.map_map]
    rfl
  rw [hheaders]
  exact List.Pairwise.map paramHeader (fun _ _ hne h => hne (paramHeader_inj h))
    (Headers.nodup_keys params)

/-- The header of a parameter has its value. -/
theorem last_paramHeaders (params : StringMap) (key : Bytes) :
    LastWins.last (params.toList.map fun kv => (paramHeader kv.1, kv.2)) (paramHeader key) =
      params[key]? := by
  refine Option.ext fun value => ?_
  rw [LastWins.last_of_nodup (nodup_paramHeaders params),
    ← Std.ExtTreeMap.mem_toList_iff_getElem?_eq_some]
  constructor
  · intro hmem
    obtain ⟨⟨key', value'⟩, hkv, heq⟩ := List.mem_map.mp hmem
    obtain ⟨hkey, rfl⟩ := Prod.mk.inj heq
    rwa [← paramHeader_inj hkey]
  · exact fun hmem => List.mem_map.mpr ⟨(key, value), hmem, rfl⟩

/-- A captured parameter replaces what the peer sent under its name, and a name that
no parameter has keeps what the peer sent. -/
theorem getElem?_attachParams (request : Request) (params : StringMap) (key : Bytes) :
    (attachParams request params).headers[paramHeader key]? =
      (params[key]?).or request.headers[paramHeader key]? := by
  rw [headers_attachParams, LastWins.getElem?_insertMany, last_paramHeaders]

/-! ## What is handed over -/

/-- The `x-param-` headers of a request are exactly the parameters. -/
def CarriesOnly (request : Request) (params : StringMap) : Prop :=
  ∀ key, request.headers[paramHeader key]? = params[key]?

/-- The peer sent `x-param-` headers for captured parameters only. -/
def SendsOnly (request : Request) (params : StringMap) : Prop :=
  ∀ key, paramHeader key ∈ request.headers → key ∈ params

/-- The headers are exactly the parameters when the peer sent no others. -/
theorem carriesOnly_attachParams_iff (request : Request) (params : StringMap) :
    CarriesOnly (attachParams request params) params ↔ SendsOnly request params := by
  refine forall_congr' fun key => ?_
  rw [getElem?_attachParams]
  cases hkey : params[key]? with
  | none =>
      have hnot : key ∉ params := by simp [Std.ExtTreeMap.mem_iff_isSome_getElem?, hkey]
      simp [hnot]
  | some value =>
      have hmem : key ∈ params := by simp [Std.ExtTreeMap.mem_iff_isSome_getElem?, hkey]
      simp [hmem]

/-- What runs first gets the request with the captures of the first route. -/
theorem request_of_first_call_of_firstTakes {client : Client} {w : W} {request : Request}
    {route : Route W} {params : StringMap} {call : Call W}
    (hdecodes : Decodes client.requestBuffer request)
    (hfirst : FirstTakes regex (routingPath request) (routingMethod request.method) ∅ routes route
      params)
    (hcall : (processRequest regex routes client w).2.2.head? = some call) :
    call.request = some (attachParams request params) := by
  rcases processRequest_calls_cases regex routes client w with
    hnil | ⟨request', route', params', handler, hdecodes', hfirst', -, hcalls⟩
  · rw [hnil] at hcall
    cases hcall
  · obtain rfl := hdecodes.unique hdecodes'
    obtain ⟨rfl, rfl⟩ := hfirst.unique hfirst'
    obtain ⟨first, calls, hruns, hrequest⟩ :=
      exists_runHandler_cons request params route.middleware handler w
    rw [hcalls, hruns] at hcall
    rw [← Option.some.inj hcall, hrequest]

/-- With a handler, something runs. -/
theorem exists_first_call {client : Client} {request : Request} {route : Route W}
    {params : StringMap} {handler : Handler W} (hdecodes : Decodes client.requestBuffer request)
    (hfirst : FirstTakes regex (routingPath request) (routingMethod request.method) ∅ routes route
      params)
    (hhandler : route.handler = some handler) (hcompiles : ∀ r ∈ routes, r.Compiles regex) (w : W) :
    ∃ call, (processRequest regex routes client w).2.2.head? = some call := by
  obtain ⟨call, calls, hruns, -⟩ :=
    exists_runHandler_cons request params route.middleware handler w
  refine ⟨call, ?_⟩
  rw [processRequest_calls, respond_of_decodes hdecodes]
  simp only [dispatch, lookupRoute, findRoute_of_firstTakes hfirst hcompiles, hhandler, hruns,
    List.head?_cons]

/-- The `x-param-` headers that user code gets are exactly what the first route
captured, exactly when the peer sent none for anything else. -/
theorem params_of_first_call_iff {client : Client} {w : W} {request : Request} {route : Route W}
    {params : StringMap} {call : Call W} (hdecodes : Decodes client.requestBuffer request)
    (hfirst : FirstTakes regex (routingPath request) (routingMethod request.method) ∅ routes route
      params)
    (hcall : (processRequest regex routes client w).2.2.head? = some call) :
    (∃ r, call.request = some r ∧ CarriesOnly r params) ↔ SendsOnly request params := by
  rw [request_of_first_call_of_firstTakes hdecodes hfirst hcall, ← carriesOnly_attachParams_iff]
  constructor
  · intro h
    obtain ⟨r, hr, honly⟩ := h
    rw [Option.some.inj hr]
    exact honly
  · exact fun honly => ⟨_, rfl, honly⟩

/-- Two requests for one method and target get the same `x-param-` headers, when
their peers sent none that the route does not capture. -/
theorem CarriesOnly.agree {request request' : Request} {route route' : Route W}
    {params params' : StringMap} (hmethod : request.method = request'.method)
    (hurl : request.url = request'.url)
    (hfirst : FirstTakes regex (routingPath request) (routingMethod request.method) ∅ routes route
      params)
    (hfirst' : FirstTakes regex (routingPath request') (routingMethod request'.method) ∅ routes
      route' params')
    (hsends : SendsOnly request params) (hsends' : SendsOnly request' params') (key : Bytes) :
    (attachParams request params).headers[paramHeader key]? =
      (attachParams request' params').headers[paramHeader key]? := by
  rw [routingPath, ← hmethod, ← hurl] at hfirst'
  obtain ⟨-, rfl⟩ := hfirst.unique hfirst'
  rw [(carriesOnly_attachParams_iff request params).mpr hsends key,
    (carriesOnly_attachParams_iff request' params).mpr hsends' key]

/-- A pattern route. -/
def userRoute : Route Unit where
  pathPattern := ascii "/users/:id"
  method := ascii "GET"
  handler := some fun _ w => (.ok {}, w)

/-- A request for a user, with the header lines that the peer chose. -/
def userRequest (headerLines : String) : Bytes :=
  ascii ("GET /users/42 HTTP/1.1\r\n" ++ headerLines ++ "\r\n")

/-- What the route captures from its path. -/
def userParams : StringMap := (∅ : StringMap).insertMany [(ascii "id", ascii "42")]

/-- The route takes the request, and its handler runs. -/
theorem call_of_userRequest {headerLines : String} {request : Request}
    (hdecodes : Decodes (userRequest headerLines) request)
    (hpath : routingPath request = ascii "/users/42") (hmethod : request.method = .get) :
    FirstTakes starEngine (routingPath request) (routingMethod request.method) ∅ [userRoute]
        userRoute userParams ∧
      ∃ call, (processRequest starEngine [userRoute] (clientWith (userRequest headerLines))
        ()).2.2.head? = some call := by
  have hsegments : List.Forall₂ SegmentTakes (splitPath (ascii "/users/:id"))
      (splitPath (ascii "/users/42")) := by decide +kernel
  have hcaptures : captures (splitPath (ascii "/users/:id")) (splitPath (ascii "/users/42")) =
      [(ascii "id", ascii "42")] := by decide +kernel
  have hfirst : FirstTakes starEngine (routingPath request) (routingMethod request.method) ∅
      [userRoute] userRoute userParams := by
    rw [hpath, hmethod, userParams, ← hcaptures]
    exact ⟨[], [], rfl, .pattern rfl rfl hsegments, fun r hr => absurd hr List.not_mem_nil⟩
  have hdata : Decodes (clientWith (userRequest headerLines)).requestBuffer request := hdecodes
  exact ⟨hfirst, exists_first_call hdata hfirst rfl (fun r _ _ => ⟨_, rfl⟩) ()⟩

theorem params_of_userRequest : ∃ call r,
    (processRequest starEngine [userRoute] (clientWith (userRequest "")) ()).2.2.head? = some call ∧
    call.request = some r ∧ CarriesOnly r userParams := by
  obtain ⟨request, hdecodes, hheaders, hpath, hmethod⟩ : ∃ request,
      Decodes (userRequest "") request ∧ request.headers = ∅ ∧
        routingPath request = ascii "/users/42" ∧ request.method = .get :=
    ⟨_, ⟨_, _, _, rfl, rfl⟩, rfl, by decide, rfl⟩
  obtain ⟨hfirst, call, hcall⟩ := call_of_userRequest hdecodes hpath hmethod
  have hsends : SendsOnly request userParams := by
    intro key hkey
    rw [hheaders] at hkey
    exact absurd hkey Std.ExtTreeMap.not_mem_empty
  have hdata : Decodes (clientWith (userRequest "")).requestBuffer request := hdecodes
  obtain ⟨r, hr, honly⟩ := (params_of_first_call_iff hdata hfirst hcall).mpr hsends
  exact ⟨call, r, hcall, hr, honly⟩

/-- A header that the peer sent under the name of a parameter that no route captures
is handed over like a captured one. -/
theorem forged_param : ∃ request call,
    Decodes (userRequest "x-param-role: admin\r\n") request ∧
    FirstTakes starEngine (routingPath request) (routingMethod request.method) ∅ [userRoute]
      userRoute userParams ∧
    (processRequest starEngine [userRoute] (clientWith (userRequest "x-param-role: admin\r\n"))
      ()).2.2.head? = some call ∧
    ¬ ∃ r, call.request = some r ∧ CarriesOnly r userParams := by
  obtain ⟨request, hdecodes, hrole, hpath, hmethod⟩ : ∃ request,
      Decodes (userRequest "x-param-role: admin\r\n") request ∧
        paramHeader (ascii "role") ∈ request.headers ∧
        routingPath request = ascii "/users/42" ∧ request.method = .get :=
    ⟨_, ⟨_, _, _, rfl, rfl⟩, by decide, by decide, rfl⟩
  obtain ⟨hfirst, call, hcall⟩ := call_of_userRequest hdecodes hpath hmethod
  refine ⟨request, call, hdecodes, hfirst, hcall, ?_⟩
  intro h
  obtain ⟨r, hr, honly⟩ := h
  have hdata : Decodes (clientWith (userRequest "x-param-role: admin\r\n")).requestBuffer request :=
    hdecodes
  rw [request_of_first_call_of_firstTakes hdata hfirst hcall] at hr
  obtain rfl := Option.some.inj hr
  have hcaptured : ascii "role" ∈ userParams :=
    (carriesOnly_attachParams_iff request userParams).mp honly (ascii "role") hrole
  exact absurd hcaptured (by decide)

end Fion.Network
