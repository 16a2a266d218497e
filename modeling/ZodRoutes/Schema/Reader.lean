/-
Reading the schema objects of a document.

Every keyword group of a schema object constrains the same value, so none is dropped.  The node's own
part comes from the listed literals (`enum`, `const`), narrowed by the typed part when constraint
keywords stand beside them; else from `type`; else from what the object and array keywords imply.
`oneOf`, `anyOf` and `allOf` add one part each.  Two or more parts become one flat intersection, none at
all means any value.  Null is gathered from `nullable`, from a list of types and from the literals into
one flag on the node.

A constraint keyword beside an explicit type has to apply to one of the types; without a type
constraints only annotate, and those that do not apply to the implied kind are dropped.

A member of an object is nested less deeply than the object, so a depth bounds the recursion.  A value
of depth zero is a scalar, hence no object: running out of depth and meeting a scalar give the same
answer, and `read` starts with the depth of the value itself.
-/
import ZodRoutes.Json.Writer
import ZodRoutes.Schema.Error
import ZodRoutes.Schema.Node

namespace ZodRoutes.Schema

open Json (Value)

namespace Reader

/-- The members of a schema object. -/
abbrev Members := List (String × Value)

/-- A reader for the schemas inside a schema object. -/
abbrev Inner := Value → Path → Except SchemaError Node

/-- A reference as it is reported: a string by itself, anything else as JSON text. -/
def referenceText : Value → String
  | .str s => s
  | v => v.text

/-- The value of a keyword through `view`, or the misuse when it has none. -/
def keyword? {α : Type} (view : Value → Option α) (misuse : Misuse) (members : Members)
    (keyword : String) (path : Path) : Except SchemaError (Option α) :=
  match Entries.get? members keyword with
  | none => .ok none
  | some value =>
    match view value with
    | some a => .ok (some a)
    | none => path.fails (.invalidKeyword keyword misuse)

/-! ### Types and null -/

/-- The names that a `type` keyword lists; none when it is neither a name nor a list of names. -/
def listedTypes? : Value → Option (List String)
  | .str name => some [name]
  | .arr (first :: rest) => (first :: rest).mapM Value.str?
  | _ => none

/-- The types that a schema object names, and whether null is listed among several. -/
structure Types where
  /-- The distinct names; without `null` when two or more names are listed. -/
  names : List String
  /-- Whether `null` is listed beside other names. -/
  withNull : Bool

/-- The types of a list of names. -/
def Types.ofListed (listed : List String) : Types :=
  if 1 < listed.length then ⟨Entries.distinct (listed.filter (· ≠ "null")), "null" ∈ listed⟩
  else ⟨listed, false⟩

/-- The types of a schema object. -/
def types (members : Members) (path : Path) : Except SchemaError Types := do
  let listed ← keyword? listedTypes? .notTypes members "type" path
  return Types.ofListed (listed.getD [])

/-- Whether the `nullable` keyword is there and true. -/
def nullable (members : Members) (path : Path) : Except SchemaError Bool := do
  return (← keyword? Value.bool? .notBoolean members "nullable" path).getD false

/-! ### Constraints -/

/-- The rules of an inclusive bound and its exclusive variant: an exclusive keyword that is true turns
the bound exclusive, a number is a bound of its own. -/
def boundRules (inclusive exclusive : String) (within beyond : Decimal.Double → Rule)
    (members : Members) (path : Path) : Except SchemaError (List Rule) := do
  let bound ← keyword? Value.double? .notNumber members inclusive path
  match Entries.get? members exclusive with
  | none | some (.bool false) => return (bound.map within).toList
  | some (.bool true) =>
    match bound with
    | some x => return [beyond x]
    | none => path.fails (.invalidKeyword exclusive (.boundless inclusive))
  | some _ =>
    let own ← keyword? Value.double? .notNumber members exclusive path
    return (bound.map within).toList ++ (own.map beyond).toList

/-- The rule of the `multipleOf` keyword, whose value has to be above zero. -/
def stepRules (members : Members) (path : Path) : Except SchemaError (List Rule) := do
  match ← keyword? Value.double? .notNumber members "multipleOf" path with
  | none => return []
  | some step =>
    if step.isPositive then return [.multipleOf step]
    else path.fails (.invalidKeyword "multipleOf" .notPositive)

/-- The rule of a keyword whose value is a count. -/
def countRules (keyword : String) (rule : Nat → Rule) (members : Members) (path : Path) :
    Except SchemaError (List Rule) := do
  return ((← keyword? Value.count? .notCount members keyword path).map rule).toList

/-- The rule of the `format` keyword; a format without a validator has none. -/
def formatRules (members : Members) (path : Path) : Except SchemaError (List Rule) := do
  let format ← keyword? Value.str? .notString members "format" path
  return ((format.bind Format.ofKeyword?).map Rule.format).toList

/-- The rule of the `pattern` keyword. -/
def patternRules (members : Members) (path : Path) : Except SchemaError (List Rule) := do
  return ((← keyword? Value.str? .notString members "pattern" path).map Rule.pattern).toList

/-- The rules of a schema object, in the order in which they are written out. -/
def rules (members : Members) (path : Path) : Except SchemaError (List Rule) := do
  let format ← formatRules members path
  let minLength ← countRules "minLength" .minLength members path
  let maxLength ← countRules "maxLength" .maxLength members path
  let pattern ← patternRules members path
  let lower ← boundRules "minimum" "exclusiveMinimum" .min .greaterThan members path
  let upper ← boundRules "maximum" "exclusiveMaximum" .max .lessThan members path
  let step ← stepRules members path
  let minItems ← countRules "minItems" .minItems members path
  let maxItems ← countRules "maxItems" .maxItems members path
  return format ++ minLength ++ maxLength ++ pattern ++ lower ++ upper ++ step ++ minItems ++ maxItems

/-! ### Literals -/

/-- The values that a schema object allows. -/
structure Allowed where
  /-- The keyword that they stem from. -/
  keyword : String
  /-- The values other than null. -/
  values : List Literal
  /-- Whether null is one of them. -/
  withNull : Bool

/-- A listed value: null, or a literal. -/
def listedLiteral? : Value → Option (Option Literal)
  | .null => some none
  | v => (Literal.ofValue? v).map some

/-- The listed values of `enum`: its literals, and whether null is listed. -/
def enumLiterals (members : Members) (path : Path) :
    Except SchemaError (Option (List Literal × Bool)) := do
  match ← keyword? Value.arr? .notArray members "enum" path with
  | none => return none
  | some [] => path.fails .emptyEnum
  | some values =>
    match values.mapM listedLiteral? with
    | none => path.fails (.invalidKeyword "enum" .notScalar)
    | some listed => return some (listed.filterMap id, listed.any Option.isNone)

/-- The allowed values: those of `enum`, or the `const` value, which has to be one of them. -/
def allowed (members : Members) (path : Path) : Except SchemaError (Option Allowed) := do
  let listed ← enumLiterals members path
  match ← keyword? listedLiteral? .notScalar members "const" path with
  | none => return listed.map fun (values, withNull) => ⟨"enum", values, withNull⟩
  | some constant =>
    let isListed := listed.all fun (values, withNull) =>
      match constant with
      | some literal => values.any (·.same literal)
      | none => withNull
    if isListed then return some ⟨"const", constant.toList, constant.isNone⟩
    else path.fails (.conflictingKeywords "enum" "const")

/-- Whether a literal is a value of the named type. -/
def fits : Literal → String → Bool
  | .str _, type => type == "string"
  | .bool _, type => type == "boolean"
  | .num n, type => type == "number" || (type == "integer" && n.isWhole)

/-- Every allowed value has to be of one of the named types, if any is named. -/
def checkTypes (allowed : Allowed) (names : List String) (path : Path) : Except SchemaError Unit :=
  if names.isEmpty || allowed.values.all fun literal => names.any (fits literal) then .ok ()
  else path.fails (.conflictingKeywords allowed.keyword "type")

/-- The node of the allowed values; when only null is allowed, the null kind. -/
def Allowed.node (allowed : Allowed) : Node :=
  if allowed.values.isEmpty then Kind.null.plain else (Kind.enumeration allowed.values).plain

/-! ### Objects and lists -/

/-- The names that a `required` keyword lists. -/
def requiredNames (members : Members) (path : Path) : Except SchemaError (List String) := do
  match ← keyword? Value.arr? .notArray members "required" path with
  | none => return []
  | some names =>
    match names.mapM Value.str? with
    | none => path.fails (.invalidKeyword "required" .notNames)
    | some names => return names

/-- The schema of every property, in order. -/
def properties (inner : Inner) (members : Members) (path : Path) :
    Except SchemaError (Entries Node) := do
  match ← keyword? Value.obj? .notObject members "properties" path with
  | none => return []
  | some schemas =>
    let nodes ← schemas.mapM fun (name, schema) => do
      return (name, ← inner schema ((path.join "properties").join name))
    return Entries.ofList nodes

/-- What members outside the properties must satisfy, and whether they are refused instead. -/
def additional (inner : Inner) (members : Members) (path : Path) :
    Except SchemaError (Option Node × Bool) := do
  match Entries.get? members "additionalProperties" with
  | none => return (none, false)
  | some (.bool true) => return (some Kind.any.plain, false)
  | some (.bool false) => return (none, true)
  | some schema => return (some (← inner schema (path.join "additionalProperties")), false)

/-- The object kind that the object keywords describe; only properties can be required. -/
def objectKind (inner : Inner) (members : Members) (path : Path) : Except SchemaError Kind := do
  let required ← requiredNames members path
  let properties ← properties inner members path
  let (additional, closed) ← additional inner members path
  return .object properties ((Entries.names properties).filter (· ∈ required)) additional closed

/-- The kind of one named type. -/
def typedKind (inner : Inner) (members : Members) (name : String) (path : Path) :
    Except SchemaError Kind := do
  match name with
  | "string" => return .string
  | "number" => return .number
  | "integer" => return .integer
  | "boolean" => return .boolean
  | "null" => return .null
  | "array" =>
    match Entries.get? members "items" with
    | some items => return .array (← inner items (path.join "items"))
    | none => path.fails (.missingKeyword "items" "array")
  | "object" => objectKind inner members path
  | other => path.fails (.unknownType other)

/-- The node of the named types with every rule on it; several types become a union, in which each
branch has the rules that apply to it. -/
def typedNode (inner : Inner) (members : Members) (names : List String) (rules : List Rule)
    (path : Path) : Except SchemaError Node := do
  match names with
  | [name] =>
    let kind ← typedKind inner members name path
    match rules.find? fun rule => !rule.appliesTo kind with
    | some rule => path.fails (.misplacedConstraint rule.keyword kind.name)
    | none => return ⟨kind, rules, false⟩
  | names =>
    let kinds ← names.zipIdx.mapM fun (name, index) =>
      typedKind inner members name (path.joinIndex "type" index)
    match rules.find? fun rule => !kinds.any rule.appliesTo with
    | some rule => path.fails (.misplacedConstraint rule.keyword "union")
    | none => return (Kind.union (kinds.map fun kind => ⟨kind, kind.applicable rules, false⟩)).plain

/-- The object or array that its keywords imply where no type is named. -/
def impliedNode? (inner : Inner) (members : Members) (rules : List Rule) (path : Path) :
    Except SchemaError (Option Node) := do
  if Entries.has members "properties" || Entries.has members "additionalProperties" then
    let kind ← objectKind inner members path
    return some ⟨kind, kind.applicable rules, false⟩
  else match Entries.get? members "items" with
    | some items =>
      let kind := Kind.array (← inner items (path.join "items"))
      return some ⟨kind, kind.applicable rules, false⟩
    | none => return none

/-! ### Parts of a schema object -/

/-- The branches of a composite keyword. -/
def branches (inner : Inner) (members : Members) (keyword kind : String) (path : Path) :
    Except SchemaError (Option (List Node)) := do
  match ← keyword? Value.arr? .notArray members keyword path with
  | none => return none
  | some [] => path.fails (.emptyComposite kind)
  | some schemas =>
    let nodes ← schemas.zipIdx.mapM fun (schema, index) =>
      inner schema (path.joinIndex keyword index)
    return some nodes

/-- The parts that stem from the literals, the types or the implied kind. -/
def ownParts (inner : Inner) (members : Members) (names : List String) (rules : List Rule)
    (allowed : Option Allowed) (path : Path) : Except SchemaError (List Node) := do
  match allowed with
  | some allowed =>
    checkTypes allowed names path
    if names.isEmpty || rules.isEmpty then return [allowed.node]
    else return [allowed.node, ← typedNode inner members names rules path]
  | none =>
    if names.isEmpty then return (← impliedNode? inner members rules path).toList
    else return [← typedNode inner members names rules path]

/-- The branches that a part adds to an intersection: those of an intersection, or the part. -/
def flattened (part : Node) : List Node :=
  match part.kind with
  | .intersection branches => branches
  | _ => [part]

/-- One node for all parts: any value for none, the part itself for one, else an intersection. -/
def combine : List Node → Node
  | [] => Kind.any.plain
  | [part] => part
  | parts => (Kind.intersection (parts.flatMap flattened)).plain

/-- The node of a schema object, given a reader for the schemas inside it. -/
def objectNode (inner : Inner) (members : Members) (path : Path) : Except SchemaError Node := do
  match Entries.get? members "$ref" with
  | some reference => path.fails (.unresolvedRef (referenceText reference))
  | none =>
    let types ← types members path
    let nullable ← nullable members path
    let rules ← rules members path
    let allowed ← allowed members path
    let own ← ownParts inner members types.names rules allowed path
    let oneOf ← branches inner members "oneOf" "union" path
    let anyOf ← branches inner members "anyOf" "union" path
    let allOf ← branches inner members "allOf" "intersection" path
    let parts := own ++ (oneOf.map fun nodes => (Kind.union nodes).plain).toList ++
      (anyOf.map fun nodes => (Kind.union nodes).plain).toList ++
      (allOf.map fun nodes => (Kind.intersection nodes).plain).toList
    let node := combine parts
    let withNull := types.withNull || nullable || allowed.any (·.withNull)
    return { node with nullable := node.nullable || withNull }

/-- Read a schema that is nested at most `depth` deep. -/
def readWithin : Nat → Inner
  | depth + 1, .obj members, path => objectNode (readWithin depth) members path
  | _, _, path => path.fails .notAnObject

end Reader

/-- Read the schema at a place of a document. -/
def readAt (schema : Value) (path : Path) : Except SchemaError Node :=
  Reader.readWithin schema.depth schema path

/-- Read a schema of a document. -/
def read (schema : Value) : Except SchemaError Node :=
  readAt schema .root

end ZodRoutes.Schema
