/-
What can be wrong with a schema.

Each error names the place of the schema it is about.  A reader refuses the document's own schema
objects; the mapping to expressions refuses malformed trees.
-/
import ZodRoutes.Schema.Path

namespace ZodRoutes.Schema

/-- What is wrong with the value of a keyword. -/
inductive Misuse where
  | notString
  | notArray
  | notObject
  | notBoolean
  | notNumber
  | notCount
  /-- Not the name of a type and not a list of such names. -/
  | notTypes
  /-- A list with an element that names no property. -/
  | notNames
  /-- A listed value that is an array or an object. -/
  | notScalar
  | notPositive
  /-- A bound declared exclusive that is not there; the keyword of the bound. -/
  | boundless (bound : String)
  deriving DecidableEq

/-- The misuse in words. -/
def Misuse.message : Misuse → String
  | notString => "expected a string"
  | notArray => "expected an array"
  | notObject => "expected an object"
  | notBoolean => "expected a boolean"
  | notNumber => "expected a number"
  | notCount => "expected a non-negative integer"
  | notTypes => "expected a string or an array of strings"
  | notNames => "expected property names"
  | notScalar => "values must be strings, numbers, booleans or null"
  | notPositive => "must be greater than 0"
  | boundless bound => "requires '" ++ bound ++ "'"

/-- What is wrong at a place of a schema. -/
inductive Fault where
  | emptyEnum
  /-- A union or intersection without branches; the name of the kind. -/
  | emptyComposite (kind : String)
  | misplacedConstraint (keyword kind : String)
  | unresolvedRef (reference : String)
  /-- A type name outside the seven known ones. -/
  | unknownType (name : String)
  /-- A keyword that the kind requires is absent. -/
  | missingKeyword (keyword kind : String)
  /-- A keyword whose value cannot be used. -/
  | invalidKeyword (keyword : String) (misuse : Misuse)
  | notAnObject
  /-- Two keywords that no value satisfies together. -/
  | conflictingKeywords (first second : String)
  deriving DecidableEq

/-- A fault and its place. -/
structure SchemaError where
  path : Path
  fault : Fault
  deriving DecidableEq

/-- The error in words. -/
def SchemaError.message (error : SchemaError) : String :=
  let place := error.path.text
  match error.fault with
  | .emptyEnum => "enum at " ++ place ++ " has no values"
  | .emptyComposite kind => kind ++ " at " ++ place ++ " has no branches"
  | .misplacedConstraint keyword kind =>
    "'" ++ keyword ++ "' at " ++ place ++ " does not apply to " ++ kind ++ " schemas"
  | .unresolvedRef reference => "unresolved reference '" ++ reference ++ "' at " ++ place
  | .unknownType name => "unknown type '" ++ name ++ "' at " ++ place
  | .missingKeyword keyword kind =>
    kind ++ " schema at " ++ place ++ " is missing '" ++ keyword ++ "'"
  | .invalidKeyword keyword misuse =>
    "invalid '" ++ keyword ++ "' at " ++ place ++ ": " ++ misuse.message
  | .notAnObject => "schema at " ++ place ++ " must be an object"
  | .conflictingKeywords first second =>
    "'" ++ first ++ "' and '" ++ second ++ "' at " ++ place ++ " contradict each other"

/-- The error of a fault at a place. -/
def Path.fails {α : Type} (path : Path) (fault : Fault) : Except SchemaError α :=
  .error ⟨path, fault⟩

end ZodRoutes.Schema
