import Fion.Router

/-!
# Building the route table

The three builders of the class `Router`.  `addRoute` appends a route, `addGroup`
appends copies of its routes with a prefix in front of the pattern and the group's
middleware behind their own, and `addResource` appends five routes for one handler.

`register` is the table after a sequence of such calls.  It is the list of the
entries of the calls, in order (`register_eq`), where `entries` says for one call
which routes it stands for.
-/

namespace Fion

open Cpp (Bytes ascii)

variable {W : Type}

/-! ## The builders -/

namespace Router

/-- `addRoute`. -/
def addRoute (routes : List (Route W)) (route : Route W) : List (Route W) := routes ++ [route]

/-- The loop of `addGroup`. -/
def addGroup (routes : List (Route W)) (pathPrefix : Bytes) (groupRoutes : List (Route W))
    (groupMiddleware : List (Middleware W)) : List (Route W) :=
  match groupRoutes with
  | [] => routes
  | route :: rest =>
      let pathPattern := pathPrefix ++ route.pathPattern
      let middleware := groupMiddleware.foldl (fun mws mw => mws ++ [mw]) route.middleware
      addGroup (addRoute routes { route with pathPattern, middleware }) pathPrefix rest
        groupMiddleware

/-- `addResource`. -/
def addResource (routes : List (Route W)) (resource : Bytes) (handler : Option (Handler W))
    (middleware : List (Middleware W)) : List (Route W) :=
  let routes := addRoute routes
    { pathPattern := ascii "/" ++ resource, method := ascii "GET", handler, middleware }
  let routes := addRoute routes
    { pathPattern := ascii "/" ++ resource, method := ascii "POST", handler, middleware }
  let routes := addRoute routes
    { pathPattern := ascii "/" ++ resource ++ ascii "/:id", method := ascii "GET", handler,
      middleware }
  let routes := addRoute routes
    { pathPattern := ascii "/" ++ resource ++ ascii "/:id", method := ascii "PUT", handler,
      middleware }
  addRoute routes
    { pathPattern := ascii "/" ++ resource ++ ascii "/:id", method := ascii "DELETE", handler,
      middleware }

end Router

/-! ## Sequences of calls -/

/-- A call of one of the builders. -/
inductive Registration (W : Type) where
  | addRoute (route : Route W)
  | addGroup (pathPrefix : Bytes) (groupRoutes : List (Route W))
      (groupMiddleware : List (Middleware W))
  | addResource (resource : Bytes) (handler : Option (Handler W))
      (middleware : List (Middleware W))

/-- The table after a call. -/
def Registration.apply (routes : List (Route W)) : Registration W → List (Route W)
  | .addRoute route => Router.addRoute routes route
  | .addGroup pathPrefix groupRoutes groupMiddleware =>
      Router.addGroup routes pathPrefix groupRoutes groupMiddleware
  | .addResource resource handler middleware =>
      Router.addResource routes resource handler middleware

/-- The table that a sequence of calls builds. -/
def register (calls : List (Registration W)) : List (Route W) := calls.foldl Registration.apply []

/-! ## Entries -/

/-- A route of a group, behind the prefix and with its own middleware in front of
the group's. -/
def Route.inGroup (own : Route W) (pathPrefix : Bytes) (groupMiddleware : List (Middleware W)) :
    Route W :=
  { own with
    pathPattern := pathPrefix ++ own.pathPattern
    middleware := own.middleware ++ groupMiddleware }

/-- The patterns of a resource with their methods. -/
def resourcePatterns (resource : Bytes) : List (Bytes × Bytes) :=
  let collection := ascii "/" ++ resource
  let member := collection ++ ascii "/:id"
  [(collection, ascii "GET"), (collection, ascii "POST"),
   (member, ascii "GET"), (member, ascii "PUT"), (member, ascii "DELETE")]

/-- The routes that a call stands for. -/
def Registration.entries : Registration W → List (Route W)
  | .addRoute route => [route]
  | .addGroup pathPrefix groupRoutes groupMiddleware =>
      groupRoutes.map fun own => own.inGroup pathPrefix groupMiddleware
  | .addResource resource handler middleware =>
      (resourcePatterns resource).map fun pm =>
        { pathPattern := pm.1, method := pm.2, handler, middleware }

/-- Pushing the elements of a list one after the other appends the list. -/
theorem foldl_push_back {α : Type} (added kept : List α) :
    added.foldl (fun xs x => xs ++ [x]) kept = kept ++ added := by
  induction added generalizing kept with
  | nil => rw [List.foldl_nil, List.append_nil]
  | cons x added ih => rw [List.foldl_cons, ih, List.append_assoc, List.singleton_append]

/-- A call appends its entries. -/
theorem Registration.apply_eq (routes : List (Route W)) (call : Registration W) :
    call.apply routes = routes ++ call.entries := by
  cases call with
  | addRoute route => rfl
  | addGroup pathPrefix groupRoutes groupMiddleware =>
      show Router.addGroup routes pathPrefix groupRoutes groupMiddleware = routes ++
        groupRoutes.map fun own => own.inGroup pathPrefix groupMiddleware
      induction groupRoutes generalizing routes with
      | nil => simp [Router.addGroup]
      | cons own rest ih =>
          rw [Router.addGroup, ih, foldl_push_back]
          simp [Router.addRoute, Route.inGroup]
  | addResource resource handler middleware =>
      simp [apply, entries, Router.addResource, Router.addRoute, resourcePatterns]

/-- The table is the list of all entries, in the order of the calls. -/
theorem register_eq (calls : List (Registration W)) :
    register calls = calls.flatMap Registration.entries := by
  have hfrom : ∀ routes : List (Route W), calls.foldl Registration.apply routes =
      routes ++ calls.flatMap Registration.entries := by
    induction calls with
    | nil => simp
    | cons call calls ih =>
        intro routes
        rw [List.foldl_cons, ih, Registration.apply_eq, List.flatMap_cons, List.append_assoc]
  simpa [register] using hfrom []

end Fion
