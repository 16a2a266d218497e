/-
Schema trees as JSON.

A node is a record of its kind, its rules and whether it is nullable; kinds and rules are variants.  What
is empty or absent is left out where reading puts it back.  Reading bounds the recursion by the depth of
the value, as a node inside another one is nested less deeply.
-/
import ZodRoutes.Json.Shape
import ZodRoutes.Schema.Node

namespace ZodRoutes.Schema

open Json (Value)

/-! ### Rules -/

/-- The name of a format as a rule. -/
def Format.ruleName : Format → String
  | .email => "Email"
  | .url => "Url"
  | .uuid => "Uuid"
  | .datetime => "Datetime"
  | .date => "Date"
  | .time => "Time"
  | .ipv4 => "Ipv4"
  | .ipv6 => "Ipv6"

/-- The format of that rule name. -/
def Format.ofRuleName? : String → Option Format
  | "Email" => some .email
  | "Url" => some .url
  | "Uuid" => some .uuid
  | "Datetime" => some .datetime
  | "Date" => some .date
  | "Time" => some .time
  | "Ipv4" => some .ipv4
  | "Ipv6" => some .ipv6
  | _ => none

namespace Rule

/-- The variant of a rule name with a content. -/
def variant (name : String) (content : Value) : Value :=
  .obj [("rule", .str name), ("value", content)]

/-- A count as JSON. -/
def countValue (n : Nat) : Value := .num (.int n)

/-- A bound as JSON. -/
def boundValue (x : Decimal.Double) : Value := .num (.real x)

/-- A rule as JSON. -/
def toValue : Rule → Value
  | format f => .obj [("rule", .str f.ruleName)]
  | minLength n => variant "MinLength" (countValue n)
  | maxLength n => variant "MaxLength" (countValue n)
  | pattern source => variant "Pattern" (.str source)
  | min x => variant "Min" (boundValue x)
  | max x => variant "Max" (boundValue x)
  | greaterThan x => variant "GreaterThan" (boundValue x)
  | lessThan x => variant "LessThan" (boundValue x)
  | multipleOf x => variant "MultipleOf" (boundValue x)
  | minItems n => variant "MinItems" (countValue n)
  | maxItems n => variant "MaxItems" (countValue n)

/-- The rule of a name with a content, for the names that have one. -/
def ofContent? (name : String) (content : Value) : Option Rule :=
  match name with
  | "MinLength" => content.count?.map minLength
  | "MaxLength" => content.count?.map maxLength
  | "Pattern" => content.str?.map pattern
  | "Min" => content.double?.map min
  | "Max" => content.double?.map max
  | "GreaterThan" => content.double?.map greaterThan
  | "LessThan" => content.double?.map lessThan
  | "MultipleOf" => content.double?.map multipleOf
  | "MinItems" => content.count?.map minItems
  | "MaxItems" => content.count?.map maxItems
  | _ => none

/-- The rule that a JSON value denotes. -/
def ofValue? (value : Value) : Option Rule := do
  let (name, content) ← value.variant? "rule" "value"
  match Format.ofRuleName? name with
  | some f => if Value.isVoid content then some (format f) else none
  | none => content.bind (ofContent? name)

end Rule

/-! ### Writing nodes -/

mutual

/-- A node as JSON. -/
def Node.toValue : Node → Value
  | ⟨kind, rules, nullable⟩ =>
    .obj ([("kind", Kind.toValue kind)] ++
      (if rules.isEmpty then [] else [("constraints", .arr (rules.map Rule.toValue))]) ++
      [("nullable", .bool nullable)])

/-- A kind as JSON. -/
def Kind.toValue : Kind → Value
  | .object properties required additional closed =>
    .obj [("type", .str "object"), ("value", .obj ([("properties", .obj (toMembers properties))] ++
      (if required.isEmpty then [] else [("required", .arr (required.map Value.str))]) ++
      additionalMember additional ++ [("strict", .bool closed)]))]
  | .array items => .obj [("type", .str "array"), ("value", Node.toValue items)]
  | .enumeration values =>
    .obj [("type", .str "enum"), ("value", .arr (values.map Literal.toValue))]
  | .union branches => .obj [("type", .str "union"), ("value", .arr (toItems branches))]
  | .intersection branches =>
    .obj [("type", .str "intersection"), ("value", .arr (toItems branches))]
  | kind => .obj [("type", .str kind.name)]

/-- The member for what other members must satisfy, when something says so. -/
def additionalMember : Option Node → List (String × Value)
  | none => []
  | some node => [("additional_properties", Node.toValue node)]

/-- Nodes as JSON, in order. -/
def toItems : List Node → List Value
  | [] => []
  | node :: rest => Node.toValue node :: toItems rest

/-- Named nodes as JSON, in order. -/
def toMembers : List (String × Node) → List (String × Value)
  | [] => []
  | (name, node) :: rest => (name, Node.toValue node) :: toMembers rest

end

/-! ### Reading nodes -/

namespace Decode

/-- A reader for the nodes inside a value. -/
abbrev Inner := Value → Option Node

/-- The value of a field that is taken as `default` when it is absent. -/
def orDefault {α : Type} (read : Value → Option α) (default : α) : Option Value → Option α
  | none => some default
  | some value => read value

/-- A list of values, each read by `read`. -/
def list? {α : Type} (read : Value → Option α) (value : Value) : Option (List α) :=
  value.arr?.bind (·.mapM read)

/-- An object of nodes, a repeated name keeping its place and taking its last node. -/
def properties? (inner : Inner) (value : Value) : Option (Entries Node) := do
  let members ← value.obj?
  let nodes ← members.mapM fun (name, node) => (inner node).map (name, ·)
  return Entries.ofList nodes

/-- A node that may be null for none. -/
def optional? (inner : Inner) : Value → Option (Option Node)
  | .null => some none
  | value => (inner value).map some

/-- The object kind of a record of its four fields. -/
def objectKind? (inner : Inner) (value : Value) : Option Kind := do
  match ← value.fields? ["properties", "required", "additional_properties", "strict"] with
  | [properties, required, additional, strict] =>
    let properties ← orDefault (properties? inner) [] properties
    let required ← orDefault (list? Value.str?) [] required
    let additional ← orDefault (optional? inner) none additional
    let closed ← orDefault Value.bool? false strict
    return .object properties (Entries.distinct required) additional closed
  | _ => none

/-- The kinds that have no content, by name. -/
def plainKind? : String → Option Kind
  | "string" => some .string
  | "number" => some .number
  | "integer" => some .integer
  | "boolean" => some .boolean
  | "null" => some .null
  | "any" => some .any
  | _ => none

/-- The kind of a name with a content, for the names that have one. -/
def contentKind? (inner : Inner) (name : String) (content : Value) : Option Kind :=
  match name with
  | "object" => objectKind? inner content
  | "array" => (inner content).map .array
  | "enum" => (list? Literal.ofValue? content).map .enumeration
  | "union" => (list? inner content).map .union
  | "intersection" => (list? inner content).map .intersection
  | _ => none

/-- The kind that a JSON value denotes. -/
def kind? (inner : Inner) (value : Value) : Option Kind := do
  let (name, content) ← value.variant? "type" "value"
  match plainKind? name with
  | some kind => if Value.isVoid content then some kind else none
  | none => content.bind (contentKind? inner name)

/-- The node that a JSON value denotes, given a reader for the nodes inside it. -/
def node? (inner : Inner) (value : Value) : Option Node := do
  match ← value.fields? ["kind", "constraints", "nullable"] with
  | [kind, rules, nullable] =>
    let kind ← kind.bind (kind? inner)
    let rules ← orDefault (list? Rule.ofValue?) [] rules
    let nullable ← orDefault Value.bool? false nullable
    return ⟨kind, rules, nullable⟩
  | _ => none

/-- The node that a JSON value nested at most `depth` deep denotes; a scalar denotes none. -/
def within? : Nat → Inner
  | 0, _ => none
  | depth + 1, value => node? (within? depth) value

end Decode

/-- The node that a JSON value denotes. -/
def Node.ofValue? (value : Value) : Option Node :=
  Decode.within? value.depth value

/-- The kind that a JSON value denotes. -/
def Kind.ofValue? (value : Value) : Option Kind :=
  Decode.kind? (Decode.within? value.depth) value

end ZodRoutes.Schema
