/-
The grammar of schemas.

A schema is an object whose keywords have values of the right shape, fit each other, and hold schemas where
schemas are read.  Not every keyword is looked at: the types count only where no values are listed, or where
a constraint stands beside the listed values, and `items` and the object keywords count only where a type or
the absence of all types and listed values asks for them.  What is not looked at may be anything.

The grammar is told from the keywords, in the words of `Meaning`; the reader does not enter.
-/
import ZodRoutes.Proofs.Schema.Meaning
import ZodRoutes.Proofs.Schema.Place

namespace ZodRoutes.Schema.Grammar

open Json (Value)
open Meaning
open Reader (Members)

/-! ### Shapes -/

/-- What the value of a keyword has to look like. -/
inductive Shape where
  | text
  | truth
  | number
  /-- A number that is a count. -/
  | count
  /-- An exclusive bound: it turns a bound exclusive or not, or is one itself. -/
  | truthOrNumber
  | scalar
  | scalars
  /-- A text, or texts of which there is at least one. -/
  | types
  | names
  | list
  | object

/-- The value may be listed: null, a truth value, a number or a text. -/
def IsScalar (value : Value) : Prop :=
  value = .null ∨ (∃ b, value = .bool b) ∨ (∃ n, value = .num n) ∨ ∃ s, value = .str s

/-- A value has a shape. -/
def Shape.Fits : Shape → Value → Prop
  | text, value => ∃ s, value = .str s
  | truth, value => ∃ b, value = .bool b
  | number, value => ∃ n, value = .num n
  | count, value => ∃ n count, value = .num n ∧ n.count? = some count
  | truthOrNumber, value => (∃ b, value = .bool b) ∨ ∃ n, value = .num n
  | scalar, value => IsScalar value
  | scalars, value => ∃ items, value = .arr items ∧ ∀ item ∈ items, IsScalar item
  | types, value => (∃ s, value = .str s) ∨
      ∃ items, value = .arr items ∧ items ≠ [] ∧ ∀ item ∈ items, ∃ s, item = .str s
  | names, value => ∃ items, value = .arr items ∧ ∀ item ∈ items, ∃ s, item = .str s
  | list, value => ∃ items, value = .arr items
  | object, value => ∃ members, value = .obj members

/-- The shape that a keyword asks for, of the keywords that do not hold a schema. -/
def shape? : String → Option Shape
  | "type" => some .types
  | "nullable" => some .truth
  | "format" => some .text
  | "pattern" => some .text
  | "minLength" => some .count
  | "maxLength" => some .count
  | "minItems" => some .count
  | "maxItems" => some .count
  | "minimum" => some .number
  | "maximum" => some .number
  | "exclusiveMinimum" => some .truthOrNumber
  | "exclusiveMaximum" => some .truthOrNumber
  | "multipleOf" => some .number
  | "enum" => some .scalars
  | "const" => some .scalar
  | "required" => some .names
  | "properties" => some .object
  | "oneOf" => some .list
  | "anyOf" => some .list
  | "allOf" => some .list
  | _ => none

/-- A keyword is absent or has a value of the shape that it asks for. -/
def Shaped (members : Members) (keyword : String) : Prop :=
  ∀ shape, shape? keyword = some shape → ∀ value, Entries.get? members keyword = some value → shape.Fits value

/-! ### Listed values and types -/

/-- The names of types. -/
def knownTypes : List String := ["string", "number", "integer", "boolean", "null", "array", "object"]

/-- A listed value is one of the named type. -/
def FitsType : Value → String → Prop
  | .str _, name => name = "string"
  | .bool _, name => name = "boolean"
  | .num n, name => name = "number" ∨ (name = "integer" ∧ n.isWhole)
  | _, _ => False

/-- Two listed values are the same: numbers only when they are of one sort, integers or not. -/
def Agree : Value → Value → Prop
  | .null, .null => True
  | .bool a, .bool b => a = b
  | .num m, .num n => m.same n
  | .str s, .str t => s = t
  | _, _ => False

/-- The `const` value is one of the `enum` values, where both are there. -/
def ConstListed (members : Members) : Prop :=
  ∀ value, Entries.get? members "const" = some value → ∀ values, Entries.get? members "enum" = some (.arr values) →
    ∃ listed ∈ values, Agree listed value

/-- Every listed value other than null is of some type that counts, where some type does. -/
def LiteralsFit (members : Members) : Prop :=
  (∃ name, Named members name) → ∀ values, listedValues? members = some values →
    ∀ value ∈ values, value ≠ .null → ∃ name, Named members name ∧ FitsType value name

/-- What is asked of the listed values. -/
structure ListedFit (members : Members) : Prop where
  enum : Shaped members "enum"
  filled : Entries.get? members "enum" ≠ some (.arr [])
  const : Shaped members "const"
  constListed : ConstListed members

/-! ### Constraints -/

/-- What is asked of a bound and its exclusive variant. -/
structure BoundFits (members : Members) (inclusive exclusive : String) : Prop where
  bound : Shaped members inclusive
  variant : Shaped members exclusive
  there : IsTrue members exclusive → Entries.has members inclusive

/-- What is asked of the constraint keywords. -/
structure ConstraintsFit (members : Members) : Prop where
  texts : ∀ keyword ∈ ["format", "pattern"], Shaped members keyword
  counts : ∀ keyword ∈ ["minLength", "maxLength", "minItems", "maxItems"], Shaped members keyword
  lower : BoundFits members "minimum" "exclusiveMinimum"
  upper : BoundFits members "maximum" "exclusiveMaximum"
  step : Shaped members "multipleOf"
  positive : ∀ n, Entries.get? members "multipleOf" = some (.num n) → 0 < n.exact

/-! ### What is looked at -/

/-- The types are looked at: some type counts, and no values are listed unless a constraint stands beside
them. -/
def TypesRead (members : Members) : Prop :=
  (∃ name, Named members name) ∧ (listedValues? members = none ∨ ∃ rule, States members rule)

/-- An object or array is implied: no type counts and no values are listed. -/
def Implied (members : Members) : Prop :=
  (¬ ∃ name, Named members name) ∧ listedValues? members = none

/-- There are properties, or something is said of other members. -/
def HasObjectKeyword (members : Members) : Prop :=
  Entries.has members "properties" ∨ Entries.has members "additionalProperties"

/-- The object keywords are looked at. -/
def ObjectRead (members : Members) : Prop :=
  (TypesRead members ∧ Named members "object") ∨ (Implied members ∧ HasObjectKeyword members)

/-- The keyword `items` is looked at. -/
def ItemsRead (members : Members) : Prop :=
  (TypesRead members ∧ Named members "array") ∨ (Implied members ∧ ¬ HasObjectKeyword members)

/-- What is asked of the types, where they are looked at. -/
structure TypesFit (members : Members) : Prop where
  known : ∀ name, Named members name → name ∈ knownTypes
  items : Named members "array" → Entries.has members "items"
  applies : ∀ rule, States members rule → ∃ name, Named members name ∧ Constrains rule.subject name

/-- What is asked of the object keywords, where they are looked at. -/
structure ObjectShaped (members : Members) : Prop where
  required : Shaped members "required"
  properties : Shaped members "properties"

/-- A schema that the object keywords hold; a truth value for other members is none. -/
inductive ObjectInside (members : Members) : Value → Prop
  | additional {schema : Value} (h : Entries.get? members "additionalProperties" = some schema)
      (notTruth : ∀ b, schema ≠ .bool b) : ObjectInside members schema
  | property {schemas : List (String × Value)} {name : String} {schema : Value}
      (h : Entries.get? members "properties" = some (.obj schemas)) (mem : (name, schema) ∈ schemas) :
      ObjectInside members schema

/-- A schema that a composite keyword lists. -/
def CompositeInside (members : Members) (keyword : String) (schema : Value) : Prop :=
  ∃ schemas, Entries.get? members keyword = some (.arr schemas) ∧ schema ∈ schemas

/-- A schema that stands inside a schema object where schemas are looked at. -/
inductive Inside (members : Members) : Value → Prop
  | items {schema : Value} (read : ItemsRead members) (h : Entries.get? members "items" = some schema) :
      Inside members schema
  | object {schema : Value} (read : ObjectRead members) (h : ObjectInside members schema) :
      Inside members schema
  | composite {keyword : String} {schema : Value} (composite : keyword ∈ composites)
      (h : CompositeInside members keyword schema) : Inside members schema

/-! ### The grammar -/

/-- What is asked of a schema object, the schemas inside it aside. -/
structure WellFormed (members : Members) : Prop where
  noReference : Entries.get? members "$ref" = none
  type : Shaped members "type"
  nullable : Shaped members "nullable"
  constraints : ConstraintsFit members
  listed : ListedFit members
  literals : LiteralsFit members
  types : TypesRead members → TypesFit members
  object : ObjectRead members → ObjectShaped members
  composites : ∀ keyword ∈ composites, Shaped members keyword
  filled : ∀ keyword ∈ Schema.composites, Entries.get? members keyword ≠ some (.arr [])

/-- A value is a schema of the grammar. -/
inductive Grammatical : Value → Prop
  | obj {members : Members} (wellFormed : WellFormed members)
      (inside : ∀ schema, Inside members schema → Grammatical schema) : Grammatical (.obj members)

variable {members : Members} {schema : Value}

/-- A value is a schema when it is a well-formed object that holds schemas where schemas are looked at. -/
theorem grammatical_obj : Grammatical (.obj members) ↔
    WellFormed members ∧ ∀ schema, Inside members schema → Grammatical schema := by
  constructor
  · intro h
    cases h with
    | obj wellFormed inside => exact ⟨wellFormed, inside⟩
  · intro h
    exact .obj h.1 h.2

/-- Only objects are schemas. -/
theorem not_grammatical (h : ∀ members, schema ≠ .obj members) : ¬ Grammatical schema := by
  intro hgrammatical
  cases hgrammatical with
  | obj _ _ => exact h _ rfl

/-- A schema inside stands below the keyword that holds it. -/
theorem Inside.child (h : Inside members schema) : ∃ steps, Child members steps schema := by
  cases h with
  | items _ h => exact ⟨_, .items h⟩
  | object _ h =>
      cases h with
      | additional h _ => exact ⟨_, .additional h⟩
      | property h mem => exact ⟨_, .property h mem⟩
  | composite composite h =>
      obtain ⟨schemas, hschemas, hmem⟩ := h
      obtain ⟨index, hindex⟩ := List.mem_iff_getElem?.mp hmem
      exact ⟨_, .branch composite hschemas hindex⟩

/-- A schema inside is nested less deeply. -/
theorem Inside.depth_le (h : Inside members schema) : schema.depth ≤ Value.depthMembers members := by
  obtain ⟨steps, hchild⟩ := h.child
  exact hchild.depth_le

end ZodRoutes.Schema.Grammar
