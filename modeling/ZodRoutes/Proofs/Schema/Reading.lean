/-
What an accepted schema object was read as.

The reader is a chain of steps, so accepting a schema object means that each keyword group was accepted.
The lemmas here open the chain once: `objectNode_eq_ok` gathers what the groups were read as into one
record, and the relations below it say how the own part, the types, the object keywords and the branches
come about.  Nothing after this file unfolds the reader.

Places only matter for errors, so `Reads` forgets at which place a schema was read.
-/
import ZodRoutes.Proofs.Entries
import ZodRoutes.Schema.Reader

namespace ZodRoutes

namespace Json.Value

theorem arr?_eq_some {value : Value} {items : List Value} :
    value.arr? = some items ↔ value = .arr items := by
  cases value <;> simp [arr?]

theorem obj?_eq_some {value : Value} {members : List (String × Value)} :
    value.obj? = some members ↔ value = .obj members := by
  cases value <;> simp [obj?]

theorem str?_eq_some {value : Value} {text : String} : value.str? = some text ↔ value = .str text := by
  cases value <;> simp [str?]

theorem bool?_eq_some {value : Value} {b : Bool} : value.bool? = some b ↔ value = .bool b := by
  cases value <;> simp [bool?]

end Json.Value

namespace Schema.Reader

open Json (Value)
open Steps (bind_eq_ok pure_eq_ok mapM_eq_ok forall₂_of_zipIdx)

variable {inner : Inner} {members : Members} {path : Path}

/-- A schema is read as a node, at whatever place. -/
def Reads (inner : Inner) (schema : Value) (node : Node) : Prop :=
  ∃ path, inner schema path = .ok node

theorem fails_ne_ok {α : Type} {path : Path} {fault : Fault} {a : α} :
    (path.fails fault : Except SchemaError α) ≠ .ok a := by
  simp [Path.fails]

/-- A keyword is absent, or its value has a view. -/
theorem keyword?_eq_ok {α : Type} {view : Value → Option α} {misuse : Misuse} {keyword : String}
    {result : Option α} :
    keyword? view misuse members keyword path = .ok result ↔
      (Entries.get? members keyword = none ∧ result = none) ∨
        ∃ value a, Entries.get? members keyword = some value ∧ view value = some a ∧ result = some a := by
  unfold keyword?
  cases hget : Entries.get? members keyword with
  | none => simp [eq_comm]
  | some value => cases hview : view value <;> simp [hview, Path.fails, eq_comm]

theorem keyword?_eq_none {α : Type} {view : Value → Option α} {misuse : Misuse} {keyword : String} :
    keyword? view misuse members keyword path = .ok none ↔ Entries.get? members keyword = none := by
  rw [keyword?_eq_ok]
  simp

theorem keyword?_eq_some {α : Type} {view : Value → Option α} {misuse : Misuse} {keyword : String} {a : α} :
    keyword? view misuse members keyword path = .ok (some a) ↔
      ∃ value, Entries.get? members keyword = some value ∧ view value = some a := by
  rw [keyword?_eq_ok]
  simp [eq_comm]

/-! ### The groups of a schema object -/

/-- What the keyword groups of a schema object were read as. -/
structure Reading where
  types : Types
  isNullable : Bool
  rules : List Rule
  allowed : Option Allowed
  own : List Node
  oneOf : Option (List Node)
  anyOf : Option (List Node)
  allOf : Option (List Node)

namespace Reading

/-- The parts in order: the own ones, then one for each composite keyword. -/
def parts (reading : Reading) : List Node :=
  reading.own ++ (reading.oneOf.map fun nodes => (Kind.union nodes).plain).toList ++
    (reading.anyOf.map fun nodes => (Kind.union nodes).plain).toList ++
    (reading.allOf.map fun nodes => (Kind.intersection nodes).plain).toList

/-- Whether some keyword admits null. -/
def withNull (reading : Reading) : Bool :=
  reading.types.withNull || reading.isNullable || reading.allowed.any (·.withNull)

/-- The node of all parts together. -/
def node (reading : Reading) : Node :=
  let node := combine reading.parts
  { node with nullable := node.nullable || reading.withNull }

/-- Every group was read from the schema object. -/
structure Of (inner : Inner) (members : Members) (path : Path) (reading : Reading) : Prop where
  noReference : Entries.get? members "$ref" = none
  types : Reader.types members path = .ok reading.types
  isNullable : nullable members path = .ok reading.isNullable
  rules : Reader.rules members path = .ok reading.rules
  allowed : Reader.allowed members path = .ok reading.allowed
  own : ownParts inner members reading.types.names reading.rules reading.allowed path = .ok reading.own
  oneOf : branches inner members "oneOf" "union" path = .ok reading.oneOf
  anyOf : branches inner members "anyOf" "union" path = .ok reading.anyOf
  allOf : branches inner members "allOf" "intersection" path = .ok reading.allOf

end Reading

/-- **A schema object is accepted when every group of it is.** -/
theorem objectNode_eq_ok {node : Node} :
    objectNode inner members path = .ok node ↔
      ∃ reading : Reading, reading.Of inner members path ∧ node = reading.node := by
  unfold objectNode
  cases href : Entries.get? members "$ref" with
  | some reference =>
      simp only [fails_ne_ok, false_iff, not_exists, not_and]
      intro reading h
      rw [h.noReference] at href
      exact absurd href (by simp)
  | none =>
      simp only [bind_eq_ok, pure_eq_ok]
      constructor
      · rintro ⟨types, htypes, isNullable, hnull, rules, hrules, allowed, hallowed, own, hown,
          oneOf, hone, anyOf, hany, allOf, hall, rfl⟩
        exact ⟨⟨types, isNullable, rules, allowed, own, oneOf, anyOf, allOf⟩,
          ⟨href, htypes, hnull, hrules, hallowed, hown, hone, hany, hall⟩, rfl⟩
      · rintro ⟨reading, h, rfl⟩
        exact ⟨_, h.types, _, h.isNullable, _, h.rules, _, h.allowed, _, h.own, _, h.oneOf, _, h.anyOf,
          _, h.allOf, rfl⟩

/-- Only objects are accepted, and only above depth zero. -/
theorem readWithin_eq_ok {depth : Nat} {schema : Value} {node : Node} :
    readWithin depth schema path = .ok node ↔
      ∃ below members, depth = below + 1 ∧ schema = .obj members ∧
        ∃ reading : Reading, reading.Of (readWithin below) members path ∧ node = reading.node := by
  constructor
  · intro h
    unfold readWithin at h
    split at h
    · exact ⟨_, _, rfl, rfl, objectNode_eq_ok.mp h⟩
    · exact absurd h fails_ne_ok
  · rintro ⟨below, members, rfl, rfl, h⟩
    exact objectNode_eq_ok.mpr h

/-! ### Branches -/

/-- Composite keywords are absent, or list schemas that are all read. -/
theorem branches_eq_ok {keyword kind : String} {result : Option (List Node)}
    (h : branches inner members keyword kind path = .ok result) :
    (Entries.get? members keyword = none ∧ result = none) ∨
      ∃ schemas nodes, Entries.get? members keyword = some (.arr schemas) ∧ schemas ≠ [] ∧
        List.Forall₂ (Reads inner) schemas nodes ∧ result = some nodes := by
  unfold branches at h
  obtain ⟨listed, hlisted, h⟩ := bind_eq_ok.mp h
  rcases keyword?_eq_ok.mp hlisted with ⟨habsent, rfl⟩ | ⟨value, schemas, hvalue, hview, rfl⟩
  · left
    exact ⟨habsent, (pure_eq_ok.mp h).symm⟩
  · right
    rw [Value.arr?_eq_some] at hview
    subst hview
    cases schemas with
    | nil => exact absurd h fails_ne_ok
    | cons first rest =>
        obtain ⟨nodes, hnodes, h⟩ := bind_eq_ok.mp h
        refine ⟨first :: rest, nodes, hvalue, by simp, ?_, (pure_eq_ok.mp h).symm⟩
        refine (forall₂_of_zipIdx (mapM_eq_ok.mp hnodes)).imp ?_
        rintro schema node ⟨index, hread⟩
        exact ⟨_, hread⟩

/-! ### Objects and types -/

/-- The schemas of properties are all read; a repeated name keeps its place and takes the last node. -/
theorem properties_eq_ok {result : Entries Node} (h : properties inner members path = .ok result) :
    (Entries.get? members "properties" = none ∧ result = []) ∨
      ∃ schemas nodes, Entries.get? members "properties" = some (.obj schemas) ∧
        Entries.Corresponds (Reads inner) schemas nodes ∧ result = Entries.ofList nodes := by
  unfold properties at h
  obtain ⟨listed, hlisted, h⟩ := bind_eq_ok.mp h
  rcases keyword?_eq_ok.mp hlisted with ⟨habsent, rfl⟩ | ⟨value, schemas, hvalue, hview, rfl⟩
  · left
    exact ⟨habsent, (pure_eq_ok.mp h).symm⟩
  · right
    rw [Value.obj?_eq_some] at hview
    subst hview
    obtain ⟨nodes, hnodes, h⟩ := bind_eq_ok.mp h
    refine ⟨schemas, nodes, hvalue, ?_, (pure_eq_ok.mp h).symm⟩
    refine (mapM_eq_ok.mp hnodes).imp ?_
    rintro ⟨name, schema⟩ node hread
    obtain ⟨inside, hinside, hpair⟩ := bind_eq_ok.mp hread
    rw [pure_eq_ok] at hpair
    subst hpair
    exact ⟨rfl, _, hinside⟩

/-- What `additionalProperties` says of other members, and whether it refuses them. -/
inductive Additional (inner : Inner) (members : Members) : Option Node → Bool → Prop
  | absent (h : Entries.get? members "additionalProperties" = none) : Additional inner members none false
  | allowed (h : Entries.get? members "additionalProperties" = some (.bool true)) :
      Additional inner members (some Kind.any.plain) false
  | refused (h : Entries.get? members "additionalProperties" = some (.bool false)) :
      Additional inner members none true
  | schema {schema : Value} {node : Node} (h : Entries.get? members "additionalProperties" = some schema)
      (notBool : ∀ b, schema ≠ .bool b) (read : Reads inner schema node) :
      Additional inner members (some node) false

theorem additional_eq_ok {result : Option Node × Bool}
    (h : additional inner members path = .ok result) : Additional inner members result.1 result.2 := by
  unfold additional at h
  split at h
  · next habsent =>
      cases h
      exact .absent habsent
  · next hallowed =>
      cases h
      exact .allowed hallowed
  · next hrefused =>
      cases h
      exact .refused hrefused
  · next schema htrue hfalse hschema =>
      obtain ⟨node, hnode, h⟩ := bind_eq_ok.mp h
      cases h
      refine .schema hschema ?_ ⟨_, hnode⟩
      rintro (_ | _) rfl
      · exact hfalse rfl
      · exact htrue rfl

/-- The object keywords were read as an object kind. -/
inductive ObjectKind (inner : Inner) (members : Members) (path : Path) : Kind → Prop
  | intro {required : List String} {nodes : Entries Node} {additional : Option Node} {closed : Bool}
      (hrequired : requiredNames members path = .ok required)
      (hproperties : properties inner members path = .ok nodes)
      (hadditional : Additional inner members additional closed) :
      ObjectKind inner members path
        (.object nodes ((Entries.names nodes).filter (· ∈ required)) additional closed)

theorem objectKind_eq_ok {kind : Kind} (h : objectKind inner members path = .ok kind) :
    ObjectKind inner members path kind := by
  unfold objectKind at h
  obtain ⟨required, hrequired, h⟩ := bind_eq_ok.mp h
  obtain ⟨nodes, hnodes, h⟩ := bind_eq_ok.mp h
  obtain ⟨⟨additional, closed⟩, hadditional, h⟩ := bind_eq_ok.mp h
  cases h
  exact .intro hrequired hnodes (additional_eq_ok hadditional)

/-- A type name was read as a kind, at whatever place. -/
inductive TypedKind (inner : Inner) (members : Members) : String → Kind → Prop
  | string : TypedKind inner members "string" .string
  | number : TypedKind inner members "number" .number
  | integer : TypedKind inner members "integer" .integer
  | boolean : TypedKind inner members "boolean" .boolean
  | null : TypedKind inner members "null" .null
  | array {items : Value} {node : Node} (h : Entries.get? members "items" = some items)
      (read : Reads inner items node) : TypedKind inner members "array" (.array node)
  | object {path : Path} {kind : Kind} (h : ObjectKind inner members path kind) :
      TypedKind inner members "object" kind

theorem typedKind_eq_ok {name : String} {kind : Kind}
    (h : typedKind inner members name path = .ok kind) : TypedKind inner members name kind := by
  unfold typedKind at h
  split at h
  · cases h
    exact .string
  · cases h
    exact .number
  · cases h
    exact .integer
  · cases h
    exact .boolean
  · cases h
    exact .null
  · split at h
    · next items hitems =>
        obtain ⟨node, hnode, h⟩ := bind_eq_ok.mp h
        cases h
        exact .array hitems ⟨_, hnode⟩
    · exact absurd h fails_ne_ok
  · exact .object (objectKind_eq_ok h)
  · exact absurd h fails_ne_ok

/-- The named types were read as a node: a single type carries every rule, several types become a
union in which every rule stands on the branches that it applies to. -/
inductive TypedNode (inner : Inner) (members : Members) (rules : List Rule) :
    List String → Node → Prop
  | single {name : String} {kind : Kind} (read : TypedKind inner members name kind)
      (applies : ∀ rule ∈ rules, rule.appliesTo kind) :
      TypedNode inner members rules [name] ⟨kind, rules, false⟩
  | several {names : List String} {kinds : List Kind}
      (read : List.Forall₂ (TypedKind inner members) names kinds)
      (applies : ∀ rule ∈ rules, ∃ kind ∈ kinds, rule.appliesTo kind) :
      TypedNode inner members rules names
        (Kind.union (kinds.map fun kind => ⟨kind, kind.applicable rules, false⟩)).plain

theorem typedNode_eq_ok {names : List String} {rules : List Rule} {node : Node}
    (h : typedNode inner members names rules path = .ok node) :
    TypedNode inner members rules names node := by
  unfold typedNode at h
  split at h
  · obtain ⟨kind, hkind, h⟩ := bind_eq_ok.mp h
    split at h
    · exact absurd h fails_ne_ok
    · next hnone =>
        cases h
        refine .single (typedKind_eq_ok hkind) ?_
        intro rule hrule
        simpa using List.find?_eq_none.mp hnone rule hrule
  · obtain ⟨kinds, hkinds, h⟩ := bind_eq_ok.mp h
    split at h
    · exact absurd h fails_ne_ok
    · next hnone =>
        cases h
        refine .several ?_ ?_
        · refine (forall₂_of_zipIdx (mapM_eq_ok.mp hkinds)).imp ?_
          rintro name kind ⟨index, hread⟩
          exact typedKind_eq_ok hread
        · intro rule hrule
          simpa using List.find?_eq_none.mp hnone rule hrule

/-- The kind that the object and array keywords imply, with the rules that apply to it. -/
inductive ImpliedNode (inner : Inner) (members : Members) (rules : List Rule) : Option Node → Prop
  | object {path : Path} {kind : Kind}
      (keywords : Entries.has members "properties" ∨ Entries.has members "additionalProperties")
      (h : ObjectKind inner members path kind) :
      ImpliedNode inner members rules (some ⟨kind, kind.applicable rules, false⟩)
  | array {items : Value} {node : Node}
      (keywords : ¬ (Entries.has members "properties" ∨ Entries.has members "additionalProperties"))
      (h : Entries.get? members "items" = some items) (read : Reads inner items node) :
      ImpliedNode inner members rules
        (some ⟨.array node, (Kind.array node).applicable rules, false⟩)
  | nothing
      (keywords : ¬ (Entries.has members "properties" ∨ Entries.has members "additionalProperties"))
      (h : Entries.get? members "items" = none) : ImpliedNode inner members rules none

theorem impliedNode?_eq_ok {rules : List Rule} {result : Option Node}
    (h : impliedNode? inner members rules path = .ok result) :
    ImpliedNode inner members rules result := by
  unfold impliedNode? at h
  split at h
  · next hkeywords =>
      obtain ⟨kind, hkind, h⟩ := bind_eq_ok.mp h
      cases h
      exact .object (by simpa using hkeywords) (objectKind_eq_ok hkind)
  · next hkeywords =>
      split at h
      · next items hitems =>
          obtain ⟨node, hnode, h⟩ := bind_eq_ok.mp h
          cases h
          exact .array (by simpa using hkeywords) hitems ⟨_, hnode⟩
      · next hnone =>
          cases h
          exact .nothing (by simpa using hkeywords) hnone

/-! ### The own parts -/

/-- What the literals, the types or the implied kind contribute.  Literals without rules beside them
stand alone, as do literals without types. -/
inductive OwnParts (inner : Inner) (members : Members) (path : Path) (names : List String)
    (rules : List Rule) : Option Allowed → List Node → Prop
  | listed {allowed : Allowed} (fit : checkTypes allowed names path = .ok ())
      (alone : names = [] ∨ rules = []) : OwnParts inner members path names rules (some allowed) [allowed.node]
  | narrowed {allowed : Allowed} {node : Node} (fit : checkTypes allowed names path = .ok ())
      (named : names ≠ []) (read : TypedNode inner members rules names node) :
      OwnParts inner members path names rules (some allowed) [allowed.node, node]
  | typed {node : Node} (named : names ≠ []) (read : TypedNode inner members rules names node) :
      OwnParts inner members path names rules none [node]
  | implied {node : Option Node} (unnamed : names = []) (read : ImpliedNode inner members rules node) :
      OwnParts inner members path names rules none node.toList

theorem ownParts_eq_ok {names : List String} {rules : List Rule} {allowed : Option Allowed}
    {own : List Node} (h : ownParts inner members names rules allowed path = .ok own) :
    OwnParts inner members path names rules allowed own := by
  unfold ownParts at h
  split at h
  · obtain ⟨⟨⟩, hfit, h⟩ := bind_eq_ok.mp h
    split at h
    · next halone =>
        cases h
        exact .listed hfit (by simpa using halone)
    · next hnamed =>
        obtain ⟨node, hnode, h⟩ := bind_eq_ok.mp h
        cases h
        simp only [Bool.or_eq_true, List.isEmpty_iff, not_or] at hnamed
        exact .narrowed hfit hnamed.1 (typedNode_eq_ok hnode)
  · split at h
    · next hunnamed =>
        obtain ⟨node, hnode, h⟩ := bind_eq_ok.mp h
        cases h
        exact .implied (by simpa using hunnamed) (impliedNode?_eq_ok hnode)
    · next hnamed =>
        obtain ⟨node, hnode, h⟩ := bind_eq_ok.mp h
        cases h
        exact .typed (by simpa using hnamed) (typedNode_eq_ok hnode)

end Schema.Reader

end ZodRoutes
