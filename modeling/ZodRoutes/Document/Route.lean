/-
Routes: the operations of a document with their parameters turned into expressions.
-/
import ZodRoutes.Http.Method
import ZodRoutes.Request.Buckets

namespace ZodRoutes.Document

open Http (Method)
open Json (Value)
open Request (Buckets)

/-- The label of an operation: its method in capitals and its path. -/
def label (method : Method) (path : String) : String :=
  method.label ++ " " ++ path

/-- One operation with the expressions of its parameters. -/
structure Route where
  /-- The name that the exported constant is made from. -/
  name : String
  method : Method
  path : String
  summary : Option String
  params : Buckets
  deriving DecidableEq

namespace Route

/-- The method and the path, for messages and comments. -/
def label (route : Route) : String := Document.label route.method route.path

/-- A route as JSON. -/
def toValue (route : Route) : Value :=
  .obj ([("name", .str route.name), ("method", .str route.method.token), ("path", .str route.path)] ++
    (route.summary.map fun summary => ("summary", Value.str summary)).toList ++
    [("params", route.params.toValue)])

/-- A summary that may be null for none. -/
def summaryOfValue? : Value → Option (Option String)
  | .null => some none
  | .str summary => some (some summary)
  | _ => none

/-- The route that a JSON value denotes; only an object may leave the summary out. -/
def ofValue? (value : Value) : Option Route := do
  match ← value.fields? ["name", "method", "path", "summary", "params"] with
  | [some name, some method, some path, summary, some params] =>
    let name ← name.str?
    let method ← method.name?.bind Method.ofToken?
    let path ← path.str?
    let summary ← Schema.Decode.orDefault summaryOfValue? none summary
    let params ← Buckets.ofValue? params
    return ⟨name, method, path, summary, params⟩
  | _ => none

end Route

end ZodRoutes.Document
