/-
Constraint rules of a schema node.

A rule constrains values of one sort: texts, numbers or lists.  It stems from one keyword of a schema
object, which is what an error about it names.
-/
import ZodRoutes.Decimal.Double

namespace ZodRoutes.Schema

open Decimal (Double)

/-- A text format that has a validator. -/
inductive Format where
  | email
  | url
  | uuid
  | datetime
  | date
  | time
  | ipv4
  | ipv6
  deriving DecidableEq

/-- The validated format that a `format` keyword names; other formats only annotate. -/
def Format.ofKeyword? : String → Option Format
  | "email" => some email
  | "uri" => some url
  | "url" => some url
  | "uuid" => some uuid
  | "date-time" => some datetime
  | "date" => some date
  | "time" => some time
  | "ipv4" => some ipv4
  | "ipv6" => some ipv6
  | _ => none

/-- The sort of values that a rule looks at. -/
inductive Subject where
  | text
  | number
  | list
  deriving DecidableEq

/-- One constraint on the values that a node accepts. -/
inductive Rule where
  | format (f : Format)
  | minLength (n : Nat)
  | maxLength (n : Nat)
  | pattern (source : String)
  /-- The number is at least the bound. -/
  | min (bound : Double)
  /-- The number is at most the bound. -/
  | max (bound : Double)
  /-- The number is above the bound. -/
  | greaterThan (bound : Double)
  /-- The number is below the bound. -/
  | lessThan (bound : Double)
  | multipleOf (step : Double)
  | minItems (n : Nat)
  | maxItems (n : Nat)
  deriving DecidableEq

namespace Rule

/-- The sort of values that the rule looks at. -/
def subject : Rule → Subject
  | format _ | minLength _ | maxLength _ | pattern _ => .text
  | min _ | max _ | greaterThan _ | lessThan _ | multipleOf _ => .number
  | minItems _ | maxItems _ => .list

/-- The keyword that the rule stems from. -/
def keyword : Rule → String
  | format _ => "format"
  | minLength _ => "minLength"
  | maxLength _ => "maxLength"
  | pattern _ => "pattern"
  | min _ => "minimum"
  | max _ => "maximum"
  | greaterThan _ => "exclusiveMinimum"
  | lessThan _ => "exclusiveMaximum"
  | multipleOf _ => "multipleOf"
  | minItems _ => "minItems"
  | maxItems _ => "maxItems"

end Rule

end ZodRoutes.Schema
