/-
Parameters of a request and their expressions.

A parameter is described by its name, its location, whether it must be there, and the schema of its
value.  Query values arrive as text: where the schema is numeric they are read as text, turned into a
number, and then checked.  A parameter that may be absent is marked so last.
-/
import ZodRoutes.Json.Shape
import ZodRoutes.Request.Location
import ZodRoutes.Schema.Codec
import ZodRoutes.Zod.Mapping

namespace ZodRoutes.Request

open Json (Value)
open Schema (Node SchemaError)

/-- One parameter of a request. -/
structure Parameter where
  /-- The name, by which the request carries it. -/
  name : String
  location : Location
  required : Bool
  schema : Node

/-- A parameter whose schema has no expression. -/
structure ParameterError where
  name : String
  location : Location
  source : SchemaError

/-- The error in words. -/
def ParameterError.message (error : ParameterError) : String :=
  error.location.token ++ " parameter '" ++ error.name ++ "': " ++ error.source.message

namespace Parameter

/-- Whether the value arrives as text but is checked as a number. -/
def needsCoercion (p : Parameter) : Bool :=
  p.location.isTextual && p.schema.isNumeric

/-- The expression of a parameter, given that of its schema. -/
def expressionOf (p : Parameter) (schema : Zod.Expr) : String :=
  let e := if p.needsCoercion then Zod.Expr.coercion Zod.Expr.string.text schema.text else schema
  (e.optional (!p.required)).text

/-- The expression of a parameter; it fails where its schema has no expression. -/
def expression (p : Parameter) : Except ParameterError String :=
  match Zod.mapNode p.schema .root with
  | .ok schema => .ok (p.expressionOf schema)
  | .error source => .error ⟨p.name, p.location, source⟩

/-- A parameter as JSON. -/
def toValue (p : Parameter) : Value :=
  .obj [("name", .str p.name), ("in", .str p.location.token), ("required", .bool p.required),
    ("schema", p.schema.toValue)]

/-- The parameter that a JSON value denotes. -/
def ofValue? (value : Value) : Option Parameter := do
  match ← value.fields? ["name", "in", "required", "schema"] with
  | [some name, some location, required, some schema] =>
    let name ← name.str?
    let location ← location.name?.bind Location.ofToken?
    let required ← Schema.Decode.orDefault Value.bool? false required
    let schema ← Node.ofValue? schema
    return ⟨name, location, required, schema⟩
  | _ => none

end Parameter

end ZodRoutes.Request
