/-
Reading the operations of a document.

Every operation becomes one route, in document order.  The parameters of the path item come first; a
parameter of the operation takes the place of the first one of the same name and location, and the
fields of the body follow.  No two operations may have the same name.
-/
import ZodRoutes.Document.Parameters
import ZodRoutes.Document.Route
import ZodRoutes.Document.RouteName

namespace ZodRoutes.Document

open Http (Method)
open Json (Value)
open Request (Buckets Parameter)

/-- Whether two parameters are the same one: of one name in one location. -/
def sameParameter (p q : Parameter) : Bool :=
  p.name == q.name && p.location == q.location

/-- Put a parameter in the place of the first one that is the same, or else at the end. -/
def override : List Parameter → Parameter → List Parameter
  | [], p => [p]
  | q :: rest, p => if sameParameter q p then p :: rest else q :: override rest p

/-- The parameters that a path item or an operation declares. -/
def declaredParameters (fields : List (String × Value)) : Except DocumentError (List Parameter) :=
  match Entries.get? fields "parameters" with
  | some parameters => readParameters parameters
  | none => .ok []

/-- The parameters that the body of an operation is split into. -/
def bodyParameters (operation : List (String × Value)) : Except DocumentError (List Parameter) :=
  match Entries.get? operation "requestBody" with
  | some body => readBody body
  | none => .ok []

/-- The parameters of an operation, given those of its path item. -/
def operationParameters (shared : List Parameter) (operation : List (String × Value)) :
    Except DocumentError (List Parameter) := do
  let own ← declaredParameters operation
  let body ← bodyParameters operation
  return own.foldl override shared ++ body

/-- The buckets of the parameters of an operation. -/
def operationBuckets (label : String) (parameters : List Parameter) :
    Except DocumentError Buckets :=
  match Buckets.ofParameters parameters with
  | .ok buckets => .ok buckets
  | .error source => .error (.params label source)

/-- The name of an operation: made from its identifier, or else from its method and path. -/
def operationName (path : String) (method : Method) (operation : List (String × Value)) : String :=
  match (Entries.get? operation "operationId").bind Value.str? with
  | some id => routeName id
  | none => routeName (method.token ++ " " ++ path)

/-- Read one operation. -/
def readOperation (path : String) (shared : List Parameter) (method : Method) (value : Value) :
    Except DocumentError Route := do
  let operation ← members value (.operation (label method path)) "operation"
  let parameters ← operationParameters shared operation
  let params ← operationBuckets (label method path) parameters
  let summary := (Entries.get? operation "summary").bind Value.str?
  return ⟨operationName path method operation, method, path, summary, params⟩

/-- Add a route at the end, unless its name is taken. -/
def addRoute (routes : List Route) (route : Route) : Except DocumentError (List Route) :=
  match routes.find? (·.name == route.name) with
  | some first => .error (.duplicateName route.name first.label route.label)
  | none => .ok (routes ++ [route])

/-- Add the routes of the operations among the members of a path item. -/
def addOperations (path : String) (shared : List Parameter) (routes : List Route) :
    List (String × Value) → Except DocumentError (List Route)
  | [] => .ok routes
  | (key, value) :: rest =>
    match Method.ofToken? key with
    | none => addOperations path shared routes rest
    | some method => do
      let route ← readOperation path shared method value
      addOperations path shared (← addRoute routes route) rest

/-- Add the routes of one path item. -/
def addPathItem (routes : List Route) (path : String) (value : Value) :
    Except DocumentError (List Route) := do
  let item ← members value (.pathItem path) "paths"
  rejectReference item (.pathItem path)
  let shared ← declaredParameters item
  addOperations path shared routes item

/-- Add the routes of every path item, in order. -/
def addPaths (routes : List Route) : List (String × Value) → Except DocumentError (List Route)
  | [] => .ok routes
  | (path, item) :: rest => do addPaths (← addPathItem routes path item) rest

/-- The version that a document declares, empty when it declares none. -/
def version (document : Value) : String :=
  ((document.get? "openapi").bind Value.str?).getD ""

/-- Read the routes of a document. -/
def readRoutes (document : Value) : Except DocumentError (List Route) :=
  if "3.".toList.isPrefixOf (version document).toList then
    match document.get? "paths" with
    | none => .ok []
    | some (.obj paths) => addPaths [] paths
    | some _ => .error (.invalidField .document "paths" .object)
  else .error (.unsupportedVersion (version document))

end ZodRoutes.Document
