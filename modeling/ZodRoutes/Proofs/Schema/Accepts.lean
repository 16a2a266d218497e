/-
The values that a schema tree accepts.

Acceptance follows the tree: a node accepts null where it says so, and otherwise what its kind accepts and
every rule on it allows.  What a single rule allows is left open, so `holds` stands for any reading of the
rules; nothing proved about acceptance depends on it.

What an object kind asks of the members of a value is told by name and is the same question for whatever
the names stand for, nodes or anything else.  `MembersFit` asks it once.
-/
import ZodRoutes.Proofs.Entries
import ZodRoutes.Schema.Node

namespace ZodRoutes

/-! ### Equal values

Numbers are equal when their exact values are, whether they were written as integers or not: every value
is a whole number of smallest binary64 magnitudes.
-/

namespace Json

/-- The exact value, in units of the smallest positive binary64 magnitude. -/
def Number.exact : Number → Int
  | .int n => n * Decimal.Double.unitsPerOne
  | .real x => if x.negative then -x.units else x.units

/-- A number has no fraction when its exact value is a multiple of one. -/
theorem Number.isWhole_iff {n : Number} : n.isWhole ↔ (Decimal.Double.unitsPerOne : Int) ∣ n.exact := by
  cases n with
  | int n => simp [Number.isWhole, Number.exact]
  | real x =>
      have hdvd : x.isWhole ↔ (Decimal.Double.unitsPerOne : Int) ∣ (x.units : Int) := by
        rw [Int.natCast_dvd_natCast, Nat.dvd_iff_mod_eq_zero, Decimal.Double.isWhole, beq_iff_eq]
      show x.isWhole ↔ _ ∣ if x.negative then -(x.units : Int) else x.units
      rw [hdvd]
      by_cases h : x.negative
      · rw [if_pos h, Int.dvd_neg]
      · rw [if_neg h]

/-- Equality of scalar values, numbers by their exact value. -/
def Value.Same : Value → Value → Prop
  | .null, .null => True
  | .bool a, .bool b => a = b
  | .num m, .num n => m.exact = n.exact
  | .str s, .str t => s = t
  | _, _ => False

end Json

open Json (Value)

namespace Schema

/-! ### Objects -/

/-- The members of an object fit what is said of them by name: required names that are described are
there, described members are accepted, and other members are accepted by `additional` if it is there,
and refused by a closed object otherwise. -/
structure MembersFit {σ : Type} (accepts : σ → Value → Prop) (properties : Entries σ)
    (required : List String) (additional : Option σ) (closed : Bool)
    (members : List (String × Value)) : Prop where
  present : ∀ name ∈ required, name ∈ Entries.names properties → name ∈ Entries.names members
  known : ∀ name description value, Entries.get? properties name = some description →
    Entries.get? members name = some value → accepts description value
  other : ∀ name description value, name ∉ Entries.names properties →
    Entries.get? members name = some value → additional = some description → accepts description value
  refused : closed → additional = none → ∀ name ∈ Entries.names members,
    name ∈ Entries.names properties

/-- Descriptions of the same names that accept the same values fit the same members. -/
theorem MembersFit.transfer {σ τ : Type} {accepts : σ → Value → Prop} {accepts' : τ → Value → Prop}
    {properties : Entries σ} {properties' : Entries τ} {required required' : List String}
    {additional : Option σ} {additional' : Option τ} {closed closed' : Bool}
    {members : List (String × Value)}
    (hproperties : Entries.Corresponds (fun d d' => ∀ value, accepts d value ↔ accepts' d' value)
      properties properties')
    (hrequired : ∀ name ∈ Entries.names properties, name ∈ required ↔ name ∈ required')
    (hadditional : ∀ value, (∀ d ∈ additional, accepts d value) ↔ ∀ d ∈ additional', accepts' d value)
    (hclosed : (closed ∧ additional = none) ↔ (closed' ∧ additional' = none))
    (h : MembersFit accepts properties required additional closed members) :
    MembersFit accepts' properties' required' additional' closed' members := by
  have hnames := hproperties.names_eq
  refine ⟨?_, ?_, ?_, ?_⟩
  · intro name hname hproperty
    rw [hnames] at hproperty
    exact h.present name ((hrequired name hproperty).mpr hname) hproperty
  · intro name d' value hd' hvalue
    obtain ⟨d, hd, hiff⟩ := hproperties.exists_of_get? hd'
    exact (hiff value).mp (h.known name d value hd hvalue)
  · intro name d' value hname hvalue hd'
    rw [hnames] at hname
    refine (hadditional value).mp ?_ d' hd'
    exact fun d hd => h.other name d value hname hvalue hd
  · intro hclosed' hnone name hname
    rw [hnames]
    obtain ⟨hc, hn⟩ := hclosed.mpr ⟨hclosed', hnone⟩
    exact h.refused hc hn name hname

theorem MembersFit.congr {σ τ : Type} {accepts : σ → Value → Prop} {accepts' : τ → Value → Prop}
    {properties : Entries σ} {properties' : Entries τ} {required required' : List String}
    {additional : Option σ} {additional' : Option τ} {closed closed' : Bool}
    {members : List (String × Value)}
    (hproperties : Entries.Corresponds (fun d d' => ∀ value, accepts d value ↔ accepts' d' value)
      properties properties')
    (hrequired : ∀ name ∈ Entries.names properties, name ∈ required ↔ name ∈ required')
    (hadditional : ∀ value, (∀ d ∈ additional, accepts d value) ↔ ∀ d ∈ additional', accepts' d value)
    (hclosed : (closed ∧ additional = none) ↔ (closed' ∧ additional' = none)) :
    MembersFit accepts properties required additional closed members ↔
      MembersFit accepts' properties' required' additional' closed' members := by
  refine ⟨.transfer hproperties hrequired hadditional hclosed, ?_⟩
  refine .transfer ?_ ?_ (fun value => (hadditional value).symm) hclosed.symm
  · exact hproperties.symm.imp fun _ _ h => ⟨h.1, fun value => (h.2 value).symm⟩
  · intro name hname
    rw [hproperties.names_eq] at hname
    exact (hrequired name hname).symm

/-! ### Trees -/

mutual

/-- A node accepts a value: null where it says so, else what its kind accepts and every rule allows. -/
inductive Node.Accepts (holds : Rule → Value → Prop) : Node → Value → Prop
  | null {kind : Kind} {rules : List Rule} : Node.Accepts holds ⟨kind, rules, true⟩ .null
  | kind {kind : Kind} {rules : List Rule} {nullable : Bool} {value : Value}
      (accepted : Kind.Accepts holds kind value) (allowed : ∀ rule ∈ rules, holds rule value) :
      Node.Accepts holds ⟨kind, rules, nullable⟩ value

/-- A kind accepts a value. -/
inductive Kind.Accepts (holds : Rule → Value → Prop) : Kind → Value → Prop
  | string {s : String} : Kind.Accepts holds .string (.str s)
  | number {n : Json.Number} : Kind.Accepts holds .number (.num n)
  | integer {n : Json.Number} (whole : n.isWhole) : Kind.Accepts holds .integer (.num n)
  | boolean {b : Bool} : Kind.Accepts holds .boolean (.bool b)
  | null : Kind.Accepts holds .null .null
  | any {value : Value} : Kind.Accepts holds .any value
  /-- A property given twice counts as it is given last. -/
  | object {properties : List (String × Node)} {required : List String} {additional : Option Node}
      {closed : Bool} {members : List (String × Value)}
      (present : ∀ name ∈ required, name ∈ Entries.names properties → name ∈ Entries.names members)
      (known : ∀ name node value, Entries.get? (Entries.ofList properties) name = some node →
        Entries.get? members name = some value → Node.Accepts holds node value)
      (other : ∀ name node value, name ∉ Entries.names properties →
        Entries.get? members name = some value → additional = some node → Node.Accepts holds node value)
      (refused : closed → additional = none → ∀ name ∈ Entries.names members,
        name ∈ Entries.names properties) :
      Kind.Accepts holds (.object properties required additional closed) (.obj members)
  | array {items : Node} {elements : List Value}
      (each : ∀ element ∈ elements, Node.Accepts holds items element) :
      Kind.Accepts holds (.array items) (.arr elements)
  | enumeration {values : List Literal} {literal : Literal} {value : Value} (listed : literal ∈ values)
      (same : literal.toValue.Same value) : Kind.Accepts holds (.enumeration values) value
  | union {branches : List Node} {branch : Node} {value : Value} (member : branch ∈ branches)
      (accepted : Node.Accepts holds branch value) : Kind.Accepts holds (.union branches) value
  | intersection {branches : List Node} {value : Value}
      (each : ∀ branch ∈ branches, Node.Accepts holds branch value) :
      Kind.Accepts holds (.intersection branches) value

end

variable {holds : Rule → Value → Prop} {value : Value}

theorem Node.accepts_iff {node : Node} :
    node.Accepts holds value ↔ (node.nullable ∧ value = .null) ∨
      (node.kind.Accepts holds value ∧ ∀ rule ∈ node.rules, holds rule value) := by
  constructor
  · intro h
    cases h with
    | null => exact .inl ⟨rfl, rfl⟩
    | kind accepted allowed => exact .inr ⟨accepted, allowed⟩
  · obtain ⟨kind, rules, nullable⟩ := node
    rintro (⟨hnull, rfl⟩ | ⟨accepted, allowed⟩)
    · cases hnull
      exact .null
    · exact .kind accepted allowed

/-- A node without rules and null accepts what its kind does. -/
@[simp] theorem Kind.accepts_plain {kind : Kind} :
    kind.plain.Accepts holds value ↔ kind.Accepts holds value := by
  simp [Node.accepts_iff, Kind.plain]

/-- Accepting null too adds null alone. -/
theorem Node.accepts_withNullable {node : Node} {nullable : Bool} :
    ({ node with nullable := node.nullable || nullable } : Node).Accepts holds value ↔
      (nullable ∧ value = .null) ∨ node.Accepts holds value := by
  rw [Node.accepts_iff, Node.accepts_iff, Bool.or_eq_true]
  tauto

namespace Kind

@[simp] theorem accepts_string :
    Kind.Accepts holds .string value ↔ ∃ s, value = .str s := by
  constructor
  · rintro ⟨⟩
    exact ⟨_, rfl⟩
  · rintro ⟨s, rfl⟩
    exact .string

@[simp] theorem accepts_number : Kind.Accepts holds .number value ↔ ∃ n, value = .num n := by
  constructor
  · rintro ⟨⟩
    exact ⟨_, rfl⟩
  · rintro ⟨n, rfl⟩
    exact .number

@[simp] theorem accepts_integer :
    Kind.Accepts holds .integer value ↔ ∃ n, value = .num n ∧ n.isWhole := by
  constructor
  · rintro ⟨⟩
    exact ⟨_, rfl, ‹_›⟩
  · rintro ⟨n, rfl, hwhole⟩
    exact .integer hwhole

@[simp] theorem accepts_boolean : Kind.Accepts holds .boolean value ↔ ∃ b, value = .bool b := by
  constructor
  · rintro ⟨⟩
    exact ⟨_, rfl⟩
  · rintro ⟨b, rfl⟩
    exact .boolean

@[simp] theorem accepts_null : Kind.Accepts holds .null value ↔ value = .null := by
  constructor
  · rintro ⟨⟩
    rfl
  · rintro rfl
    exact .null

@[simp] theorem accepts_any : Kind.Accepts holds .any value :=
  .any

theorem accepts_object {properties : List (String × Node)} {required : List String}
    {additional : Option Node} {closed : Bool} :
    Kind.Accepts holds (.object properties required additional closed) value ↔
      ∃ members, value = .obj members ∧ MembersFit (Node.Accepts holds) (Entries.ofList properties)
        required additional closed members := by
  have hnames : ∀ name, name ∈ Entries.names (Entries.ofList properties) ↔
      name ∈ Entries.names properties := by
    intro name
    rw [Entries.names_ofList, Entries.mem_distinct]
  constructor
  · intro h
    cases h with
    | object present known other refused =>
        simp only [← hnames] at present other refused
        exact ⟨_, rfl, present, known, other, refused⟩
  · rintro ⟨members, rfl, present, known, other, refused⟩
    simp only [hnames] at present other refused
    exact .object present known other refused

theorem accepts_array {items : Node} :
    Kind.Accepts holds (.array items) value ↔
      ∃ elements, value = .arr elements ∧ ∀ element ∈ elements, items.Accepts holds element := by
  constructor
  · rintro ⟨⟩
    exact ⟨_, rfl, ‹_›⟩
  · rintro ⟨elements, rfl, each⟩
    exact .array each

theorem accepts_enumeration {values : List Literal} :
    Kind.Accepts holds (.enumeration values) value ↔
      ∃ literal ∈ values, literal.toValue.Same value := by
  constructor
  · rintro ⟨⟩
    exact ⟨_, ‹_›, ‹_›⟩
  · rintro ⟨literal, listed, same⟩
    exact .enumeration listed same

theorem accepts_union {branches : List Node} :
    Kind.Accepts holds (.union branches) value ↔ ∃ branch ∈ branches, branch.Accepts holds value := by
  constructor
  · rintro ⟨⟩
    exact ⟨_, ‹_›, ‹_›⟩
  · rintro ⟨branch, member, accepted⟩
    exact .union member accepted

theorem accepts_intersection {branches : List Node} :
    Kind.Accepts holds (.intersection branches) value ↔
      ∀ branch ∈ branches, branch.Accepts holds value := by
  constructor
  · rintro ⟨⟩
    assumption
  · exact .intersection

end Kind

end Schema

end ZodRoutes
