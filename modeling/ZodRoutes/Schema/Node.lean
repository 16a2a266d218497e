/-
Schema trees.

A node is a kind with the constraint rules on its values and whether null is accepted beside them.
Objects keep their properties in document order; unions accept what some branch accepts, intersections
what every branch accepts.
-/
import ZodRoutes.Entries
import ZodRoutes.Schema.Literal
import ZodRoutes.Schema.Rule

namespace ZodRoutes.Schema

mutual

/-- One schema: a kind, the rules on its values, and whether null is accepted too. -/
structure Node where
  kind : Kind
  /-- Constraints on these values, in the order in which they are written out. -/
  rules : List Rule
  nullable : Bool

/-- The sort of values that a node accepts. -/
inductive Kind where
  | string
  | number
  | integer
  | boolean
  | null
  | any
  /-- An object: named properties, those that must be there, what other members must satisfy, and
  whether other members are refused when nothing says what they must satisfy. -/
  | object (properties : List (String × Node)) (required : List String) (additional : Option Node)
      (closed : Bool)
  | array (items : Node)
  | enumeration (values : List Literal)
  | union (branches : List Node)
  | intersection (branches : List Node)

end

namespace Kind

/-- The name of a kind in documents and messages. -/
def name : Kind → String
  | string => "string"
  | number => "number"
  | integer => "integer"
  | boolean => "boolean"
  | null => "null"
  | any => "any"
  | object .. => "object"
  | array _ => "array"
  | enumeration _ => "enum"
  | union _ => "union"
  | intersection _ => "intersection"

/-- Whether the kind is `number` or `integer`. -/
def isNumeric : Kind → Bool
  | number => true
  | integer => true
  | _ => false

/-- The sort of rules that may stand on a node of this kind. -/
def subject? : Kind → Option Subject
  | string => some .text
  | number => some .number
  | integer => some .number
  | array _ => some .list
  | _ => none

end Kind

/-- Whether a rule may stand on a node of that kind. -/
def Rule.appliesTo (rule : Rule) (kind : Kind) : Bool :=
  kind.subject? == some rule.subject

/-- The rules that may stand on a node of that kind, in order. -/
def Kind.applicable (kind : Kind) (rules : List Rule) : List Rule :=
  rules.filter (·.appliesTo kind)

/-- A node of a kind with neither rules nor null. -/
def Kind.plain (kind : Kind) : Node := ⟨kind, [], false⟩

namespace Node

mutual

/-- Whether every value of the node is a number (or null): the kind is numeric, or an intersection
with a branch of which that holds. -/
def isNumeric : Node → Bool
  | ⟨.intersection branches, _, _⟩ => anyNumeric branches
  | ⟨kind, _, _⟩ => kind.isNumeric

/-- Whether some node of the list is numeric. -/
def anyNumeric : List Node → Bool
  | [] => false
  | node :: rest => isNumeric node || anyNumeric rest

end

end Node

end ZodRoutes.Schema
