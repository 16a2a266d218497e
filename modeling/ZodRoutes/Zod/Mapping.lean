/-
Schema trees as Zod expressions.

Every node becomes one expression: the base of its kind, the call of each rule in order, and null when
the node is nullable.  A tree is refused at its first malformed node: a closed set or a composite with
nothing in it, or a rule that does not apply to the kind.  Places follow the tree, so the branches of
every union are below `anyOf` and those of every intersection below `allOf`.
-/
import ZodRoutes.Schema.Error
import ZodRoutes.Schema.Node
import ZodRoutes.Zod.Expr

namespace ZodRoutes.Zod

open Schema (Kind Node Path Rule SchemaError)

/-- Chain the call of every rule; a rule that does not apply to the kind is refused. -/
def withRules (kind : Kind) (path : Path) : List Rule → Expr → Except SchemaError Expr
  | [], e => .ok e
  | rule :: rest, e =>
    if rule.appliesTo kind then withRules kind path rest (e.rule rule)
    else path.fails (.misplacedConstraint rule.keyword kind.name)

/-- An object of the expressions of its properties, those that are not required being optional.  Other
members satisfy `additional` when it is there, and are refused when the object is closed; where there is
no property they are all members. -/
def objectExpr : Entries String → Option String → Bool → Expr
  | [], some value, _ => .record value
  | properties, some value, _ => (Expr.object properties).call (".catchall(" ++ value ++ ")")
  | properties, none, true => (Expr.object properties).call ".strict()"
  | properties, none, false => Expr.object properties

mutual

/-- The expression of a node at a place. -/
def mapNode : Node → Path → Except SchemaError Expr
  | ⟨kind, rules, nullable⟩, path => do
    let base ← mapKind kind path
    let e ← withRules kind path rules base
    return e.nullable nullable

/-- The expression of a kind at a place. -/
def mapKind : Kind → Path → Except SchemaError Expr
  | .string, _ => .ok .string
  | .number, _ => .ok .number
  | .integer, _ => .ok .integer
  | .boolean, _ => .ok .boolean
  | .null, _ => .ok .null
  | .any, _ => .ok .unknown
  | .object properties required additional closed, path => do
    let additional ← mapAdditional additional path
    let entries ← mapProperties required (path.join "properties") properties
    return objectExpr (Entries.ofList entries) additional closed
  | .array items, path => do
    let element ← mapNode items (path.join "items")
    return .array element.text
  | .enumeration values, path =>
    if values.isEmpty then path.fails .emptyEnum else .ok (.enumeration values)
  | .union branches, path =>
    if branches.isEmpty then path.fails (.emptyComposite "union")
    else do return .union (← mapBranches "anyOf" path 0 branches)
  | .intersection branches, path =>
    if branches.isEmpty then path.fails (.emptyComposite "intersection")
    else do return .intersection (← mapBranches "allOf" path 0 branches)

/-- The text for other members of an object, when something says what they must satisfy. -/
def mapAdditional : Option Node → Path → Except SchemaError (Option String)
  | none, _ => .ok none
  | some node, path => do
    let e ← mapNode node (path.join "additionalProperties")
    return some e.text

/-- The text of every property, in order. -/
def mapProperties (required : List String) (path : Path) :
    List (String × Node) → Except SchemaError (List (String × String))
  | [] => .ok []
  | (name, node) :: rest => do
    let e ← mapNode node (path.join name)
    let others ← mapProperties required path rest
    return (name, (e.optional (name ∉ required)).text) :: others

/-- The text of every branch, in order, numbered from `index` on. -/
def mapBranches (keyword : String) (path : Path) :
    Nat → List Node → Except SchemaError (List String)
  | _, [] => .ok []
  | index, node :: rest => do
    let e ← mapNode node (path.joinIndex keyword index)
    let others ← mapBranches keyword path (index + 1) rest
    return e.text :: others

end

/-- The text of the expression of a schema tree. -/
def expression (node : Node) : Except SchemaError String := do
  return (← mapNode node .root).text

end ZodRoutes.Zod
