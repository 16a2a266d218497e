/-
The reader accepts exactly the grammar.

Each reader of a keyword group succeeds exactly when the group is as the grammar asks, whatever the other
groups are; so the chain of readers of a schema object succeeds exactly when the object is well formed and
the schemas inside it are accepted.  The schemas inside are nested less deeply, which carries the induction.

Where a reader is skipped, the grammar asks nothing: which readers run depends on the types that count, the
listed values and the constraints, and these are already read when the question comes up.
-/
import Mathlib.Tactic.Tauto
import ZodRoutes.Proofs.Decimal.Nearest
import ZodRoutes.Proofs.Schema.Faithful
import ZodRoutes.Proofs.Schema.Grammar

namespace ZodRoutes

/-- A number is above zero as a binary64 number when its exact value is. -/
theorem Json.Number.isPositive_toDouble {n : Json.Number} : n.toDouble.isPositive ↔ 0 < n.exact := by
  unfold Decimal.Double.isPositive
  rw [Bool.and_eq_true, bne_iff_ne]
  cases n with
  | real x =>
      show (!x.negative) = true ∧ x.rank ≠ 0 ↔ 0 < if x.negative then -(x.units : Int) else x.units
      rw [ne_eq, Decimal.Double.rank_eq_zero]
      by_cases h : x.negative
      · simp [h]
      · simp [h, Nat.pos_iff_ne_zero]
  | int n =>
      have hone : (0 : Int) < Decimal.Double.unitsPerOne := Int.natCast_pos.mpr Decimal.Double.unitsPerOne_pos
      show (!(Decimal.Double.ofInt n).negative) = true ∧ (Decimal.Double.ofInt n).rank ≠ 0 ↔
        0 < n * (Decimal.Double.unitsPerOne : Int)
      rw [mul_pos_iff_of_pos_right hone, Decimal.Double.ofInt_negative]
      constructor
      · intro h
        have hnonneg : ¬ n < 0 := by simpa using h.1
        have hne : n ≠ 0 := by
          intro hzero
          subst hzero
          exact h.2 rfl
        omega
      · intro h
        exact ⟨by simpa using Int.le_of_lt h, Decimal.Double.rank_ofInt_ne_zero h⟩

namespace Schema

namespace Reader

open Grammar
open Json (Value)
open Meaning
open Steps

variable {inner : Inner} {members : Members} {path : Path}

@[simp] theorem not_succeeds_fails {α : Type} {fault : Fault} :
    ¬ Succeeds (path.fails fault : Except SchemaError α) :=
  not_succeeds_error _

/-! ### Keywords -/

/-- A view gives something of exactly the values of a shape. -/
def Views {α : Type} (view : Value → Option α) (shape : Shape) : Prop :=
  ∀ value, (view value).isSome ↔ shape.Fits value

theorem views_text : Views Value.str? .text := by
  intro value
  cases value <;> simp [Value.str?, Shape.Fits]

theorem views_truth : Views Value.bool? .truth := by
  intro value
  cases value <;> simp [Value.bool?, Shape.Fits]

theorem views_number : Views Value.double? .number := by
  intro value
  cases value <;> simp [Value.double?, Shape.Fits]

theorem views_count : Views Value.count? .count := by
  intro value
  cases value <;> simp [Value.count?, Shape.Fits, Option.isSome_iff_exists]

theorem views_list : Views Value.arr? .list := by
  intro value
  cases value <;> simp [Value.arr?, Shape.Fits]

theorem views_object : Views Value.obj? .object := by
  intro value
  cases value <;> simp [Value.obj?, Shape.Fits]

theorem views_scalar : Views listedLiteral? .scalar := by
  intro value
  cases value <;> simp [listedLiteral?, Literal.ofValue?, Shape.Fits, IsScalar]

theorem views_types : Views listedTypes? .types := by
  intro value
  cases value with
  | arr items =>
      cases items with
      | nil => simp [listedTypes?, Shape.Fits]
      | cons first rest =>
          show ((first :: rest).mapM Value.str?).isSome ↔ _
          rw [isSome_mapM]
          simp [Shape.Fits, views_text _]
  | _ => simp [listedTypes?, Shape.Fits]

/-- A keyword is read when it is absent or its value has the shape that is viewed. -/
theorem succeeds_keyword?_view {α : Type} {view : Value → Option α} {misuse : Misuse} {keyword : String}
    {shape : Shape} (hview : Views view shape) :
    Succeeds (keyword? view misuse members keyword path) ↔
      ∀ value, Entries.get? members keyword = some value → shape.Fits value := by
  unfold keyword?
  cases hget : Entries.get? members keyword with
  | none => simp
  | some value =>
      have hvalue := hview value
      cases hfound : view value <;> simp_all

/-- A keyword is read when it is absent or has the shape that it asks for. -/
theorem succeeds_keyword? {α : Type} {view : Value → Option α} {misuse : Misuse} {keyword : String}
    {shape : Shape} (hshape : shape? keyword = some shape) (hview : Views view shape) :
    Succeeds (keyword? view misuse members keyword path) ↔ Shaped members keyword := by
  rw [succeeds_keyword?_view hview]
  unfold Shaped
  simp [hshape]

/-- The array that a keyword is read as is its value. -/
theorem get?_of_keyword_arr {misuse : Misuse} {keyword : String} {items : List Value}
    (h : keyword? Value.arr? misuse members keyword path = .ok (some items)) :
    Entries.get? members keyword = some (.arr items) := by
  obtain ⟨value, hvalue, hview⟩ := keyword?_eq_some.mp h
  rw [hvalue, Value.arr?_eq_some.mp hview]

/-- A list of a keyword has its shape when it is a list and every item is as it should be. -/
theorem shaped_list_iff {keyword : String} {shape : Shape} {fits : Value → Prop}
    (hshape : shape? keyword = some shape)
    (hfits : ∀ value, shape.Fits value ↔ ∃ items, value = .arr items ∧ ∀ item ∈ items, fits item) :
    Shaped members keyword ↔ (∀ value, Entries.get? members keyword = some value → Shape.list.Fits value) ∧
      ∀ items, Entries.get? members keyword = some (.arr items) → ∀ item ∈ items, fits item := by
  unfold Shaped
  simp only [hshape, Option.some.injEq, forall_eq', hfits]
  constructor
  · intro h
    refine ⟨fun value hvalue => ?_, fun items hitems => ?_⟩
    · obtain ⟨items, heq, -⟩ := h value hvalue
      exact ⟨items, heq⟩
    · obtain ⟨others, heq, heach⟩ := h _ hitems
      cases heq
      exact heach
  · intro h value hvalue
    obtain ⟨items, heq⟩ := h.1 value hvalue
    subst heq
    exact ⟨items, rfl, h.2 items hvalue⟩

/-! ### Types, null and constraints -/

theorem succeeds_types : Succeeds (types members path) ↔ Shaped members "type" :=
  succeeds_bind_pure.trans (succeeds_keyword? rfl views_types)

theorem succeeds_nullable : Succeeds (nullable members path) ↔ Shaped members "nullable" :=
  succeeds_bind_pure.trans (succeeds_keyword? rfl views_truth)

theorem succeeds_formatRules : Succeeds (formatRules members path) ↔ Shaped members "format" :=
  succeeds_bind_pure.trans (succeeds_keyword? rfl views_text)

theorem succeeds_patternRules : Succeeds (patternRules members path) ↔ Shaped members "pattern" :=
  succeeds_bind_pure.trans (succeeds_keyword? rfl views_text)

theorem succeeds_countRules {keyword : String} {rule : Nat → Rule} (hshape : shape? keyword = some .count) :
    Succeeds (countRules keyword rule members path) ↔ Shaped members keyword :=
  succeeds_bind_pure.trans (succeeds_keyword? hshape views_count)

theorem succeeds_stepRules : Succeeds (stepRules members path) ↔ Shaped members "multipleOf" ∧
    ∀ n, Entries.get? members "multipleOf" = some (.num n) → 0 < n.exact := by
  unfold stepRules
  rw [succeeds_bind, succeeds_keyword? rfl views_number]
  intro step hstep
  have hnumber : ∀ x, step = some x ↔ HasNumber members "multipleOf" x := fun x => hasNumber_of_keyword hstep
  cases step with
  | none =>
      simp only [succeeds_pure, true_iff]
      intro n hn
      exact absurd ((hnumber n.toDouble).mpr ⟨n, hn, rfl⟩) (by simp)
  | some x =>
      obtain ⟨n, hn, rfl⟩ := (hnumber x).mp rfl
      have hone : (∀ m, Entries.get? members "multipleOf" = some (.num m) → 0 < m.exact) ↔ 0 < n.exact := by
        simp [hn]
      rw [hone, ← Json.Number.isPositive_toDouble]
      exact succeeds_guard

/-- A bound is read when both keywords have their shapes and an exclusive bound is there. -/
theorem succeeds_boundRules {inclusive exclusive : String} {within beyond : Decimal.Double → Rule}
    (hinclusive : shape? inclusive = some .number) (hexclusive : shape? exclusive = some .truthOrNumber) :
    Succeeds (boundRules inclusive exclusive within beyond members path) ↔
      BoundFits members inclusive exclusive := by
  have hfits : BoundFits members inclusive exclusive ↔ Shaped members inclusive ∧
      Shaped members exclusive ∧ (IsTrue members exclusive → Entries.has members inclusive) :=
    ⟨fun h => ⟨h.bound, h.variant, h.there⟩, fun h => ⟨h.1, h.2.1, h.2.2⟩⟩
  unfold boundRules
  rw [hfits, succeeds_bind, succeeds_keyword? hinclusive views_number]
  intro bound hbound
  have hthere : bound.isSome ↔ Entries.has members inclusive := by
    unfold Entries.has
    rcases keyword?_eq_ok.mp hbound with ⟨habsent, rfl⟩ | ⟨value, x, hvalue, hview, rfl⟩
    · simp [habsent]
    · simp [hvalue]
  unfold Shaped IsTrue
  rw [← hthere]
  split
  · next habsent => simp [habsent]
  · next hfalse => simp [hfalse, hexclusive, Shape.Fits]
  · next htrue => cases bound <;> simp [htrue, hexclusive, Shape.Fits]
  · next value hnotFalse hnotTrue hvalue =>
      rw [succeeds_bind_pure]
      unfold keyword?
      rw [hvalue]
      cases value with
      | bool b => cases b <;> simp_all
      | _ => simp [hexclusive, Shape.Fits, Value.double?]

/-- **The constraint keywords are read when they are as the grammar asks.** -/
theorem succeeds_rules : Succeeds (rules members path) ↔ ConstraintsFit members := by
  have hchain : Succeeds (rules members path) ↔ Succeeds (formatRules members path) ∧
      Succeeds (countRules "minLength" .minLength members path) ∧
      Succeeds (countRules "maxLength" .maxLength members path) ∧ Succeeds (patternRules members path) ∧
      Succeeds (boundRules "minimum" "exclusiveMinimum" .min .greaterThan members path) ∧
      Succeeds (boundRules "maximum" "exclusiveMaximum" .max .lessThan members path) ∧
      Succeeds (stepRules members path) ∧ Succeeds (countRules "minItems" .minItems members path) ∧
      Succeeds (countRules "maxItems" .maxItems members path) := by
    unfold rules
    iterate 8 refine succeeds_bind fun _ _ => ?_
    exact succeeds_bind_pure
  rw [hchain, succeeds_formatRules, succeeds_countRules rfl, succeeds_countRules rfl, succeeds_patternRules,
    succeeds_boundRules rfl rfl, succeeds_boundRules rfl rfl, succeeds_stepRules, succeeds_countRules rfl,
    succeeds_countRules rfl]
  constructor
  · rintro ⟨format, minLength, maxLength, pattern, lower, upper, ⟨step, positive⟩, minItems, maxItems⟩
    exact ⟨by simp [format, pattern], by simp [minLength, maxLength, minItems, maxItems], lower, upper, step,
      positive⟩
  · intro h
    obtain ⟨texts, counts, lower, upper, step, positive⟩ := h
    simp only [List.forall_mem_cons] at texts counts
    exact ⟨texts.1, counts.1, counts.2.1, texts.2.1, lower, upper, ⟨step, positive⟩, counts.2.2.1,
      counts.2.2.2.1⟩

/-! ### Listed values -/

theorem succeeds_enumLiterals : Succeeds (enumLiterals members path) ↔
    Shaped members "enum" ∧ Entries.get? members "enum" ≠ some (.arr []) := by
  unfold enumLiterals
  rw [shaped_list_iff rfl fun _ => Iff.rfl, and_assoc, succeeds_bind, succeeds_keyword?_view views_list]
  intro given hgiven
  split
  · simp [keyword?_eq_none.mp hgiven]
  · simp [get?_of_keyword_arr hgiven]
  · next values hfilled =>
      have hne : values ≠ [] := fun heq => hfilled (by rw [heq])
      have hscalars : (values.mapM listedLiteral?).isSome ↔ ∀ value ∈ values, IsScalar value :=
        isSome_mapM.trans (forall₂_congr fun value _ => views_scalar value)
      simp only [get?_of_keyword_arr hgiven, Option.some.injEq, Value.arr.injEq, forall_eq', ne_eq, hne,
        not_false_eq_true, and_true, ← hscalars]
      cases values.mapM listedLiteral? <;> simp

/-- Null is listed when it agrees with a listed value. -/
theorem null_listed_iff {listed : List (Option Literal)} :
    (∃ value ∈ listed.map listedValue, Agree value .null) ↔ listed.any Option.isNone := by
  have hnull : ∀ o, Agree (listedValue o) .null ↔ o.isNone := by
    intro o
    rcases o with _ | (_ | _ | _) <;> simp [listedValue, Literal.toValue, Agree]
  rw [List.any_eq_true]
  simp only [List.mem_map, exists_exists_and_eq_and, hnull]

/-- A literal is listed when it agrees with a listed value. -/
theorem literal_listed_iff {listed : List (Option Literal)} {literal : Literal} :
    (∃ value ∈ listed.map listedValue, Agree value literal.toValue) ↔
      (listed.filterMap id).any (·.same literal) := by
  have hsame : ∀ o, Agree (listedValue o) literal.toValue ↔ ∃ other, o = some other ∧ other.same literal := by
    intro o
    rcases o with _ | (_ | _ | _) <;> cases literal <;>
      simp [listedValue, Literal.toValue, Agree, Literal.same]
  rw [List.any_eq_true]
  simp only [List.mem_map, exists_exists_and_eq_and, hsame, List.mem_filterMap, id_eq, exists_eq_right]
  constructor
  · rintro ⟨_, hmem, other, rfl, hother⟩
    exact ⟨other, hmem, hother⟩
  · rintro ⟨other, hmem, hother⟩
    exact ⟨_, hmem, other, rfl, hother⟩

theorem succeeds_allowed : Succeeds (allowed members path) ↔ ListedFit members := by
  have hfits : ListedFit members ↔ (Shaped members "enum" ∧ Entries.get? members "enum" ≠ some (.arr [])) ∧
      Shaped members "const" ∧ ConstListed members :=
    ⟨fun h => ⟨⟨h.enum, h.filled⟩, h.const, h.constListed⟩, fun h => ⟨h.1.1, h.1.2, h.2.1, h.2.2⟩⟩
  unfold allowed
  rw [hfits, succeeds_bind, succeeds_enumLiterals]
  intro given hgiven
  rw [succeeds_bind, succeeds_keyword? rfl views_scalar]
  intro constant hconstant
  unfold ConstListed
  rcases keyword?_eq_ok.mp hconstant with ⟨habsent, rfl⟩ | ⟨value, literal, hvalue, hview, rfl⟩
  · simp [habsent]
  · rw [hvalue, listedLiteral?_eq_some.mp hview]
    rcases enumLiterals_eq_ok hgiven with ⟨hnone, rfl⟩ | ⟨listed, henum, -, rfl⟩
    · cases literal <;> simp [hnone]
    · rw [henum]
      simp only [Option.some.injEq, Value.arr.injEq, forall_eq']
      cases literal with
      | none =>
          exact succeeds_guard.trans null_listed_iff.symm
      | some literal =>
          exact succeeds_guard.trans literal_listed_iff.symm

theorem fitsType_toValue {literal : Literal} {name : String} :
    FitsType literal.toValue name ↔ fits literal name := by
  cases literal <;> simp [Literal.toValue, FitsType, fits]

theorem succeeds_checkTypes {result : Allowed} {names : List String} :
    Succeeds (checkTypes result names path) ↔
      names = [] ∨ ∀ literal ∈ result.values, ∃ name ∈ names, fits literal name := by
  unfold checkTypes
  rw [← List.isEmpty_iff]
  simp only [← List.any_eq_true]
  rw [← List.all_eq_true, ← Bool.or_eq_true]
  exact succeeds_guard

/-- The listed values fit the types when their literals do. -/
theorem literalsFit_iff {result : Allowed} (h : allowed members path = .ok (some result))
    {names : List String} (hnames : ∀ name, name ∈ names ↔ Named members name) :
    LiteralsFit members ↔ names = [] ∨ ∀ literal ∈ result.values, ∃ name ∈ names, fits literal name := by
  rcases allowed_eq_ok h with ⟨-, habsurd⟩ | ⟨listed, keyword, hlisted, -, hresult⟩
  · exact absurd habsurd (by simp)
  cases hresult
  have hnamed : names = [] ↔ ¬ ∃ name, Named members name := by
    rw [List.eq_nil_iff_forall_not_mem]
    simp [hnames]
  unfold LiteralsFit
  rw [hlisted, hnamed, ← imp_iff_not_or]
  refine imp_congr Iff.rfl ?_
  simp only [← fitsType_toValue, hnames]
  constructor
  · intro hfit literal hliteral
    have hmem : some literal ∈ listed := by simpa using hliteral
    refine hfit _ rfl literal.toValue (List.mem_map.mpr ⟨_, hmem, rfl⟩) ?_
    cases literal <;> simp [Literal.toValue]
  · intro hfit values hvalues value hvalue hnull
    cases hvalues
    obtain ⟨_ | literal, hmem, rfl⟩ := List.mem_map.mp hvalue
    · exact absurd rfl hnull
    · exact hfit literal (by simpa using hmem)

/-! ### Objects and lists -/

theorem succeeds_requiredNames : Succeeds (requiredNames members path) ↔ Shaped members "required" := by
  unfold requiredNames
  rw [shaped_list_iff rfl fun _ => Iff.rfl, succeeds_bind, succeeds_keyword?_view views_list]
  intro given hgiven
  split
  · simp [keyword?_eq_none.mp hgiven]
  · next items =>
      have hnames : (items.mapM Value.str?).isSome ↔ ∀ item ∈ items, ∃ s, item = .str s :=
        isSome_mapM.trans (forall₂_congr fun item _ => views_text item)
      simp only [get?_of_keyword_arr hgiven, Option.some.injEq, Value.arr.injEq, forall_eq', ← hnames]
      cases items.mapM Value.str? <;> simp

/-- The schemas inside a schema object are read when they are good. -/
def InnerAccepts (inner : Inner) (good : Value → Prop) (members : Members) : Prop :=
  ∀ schema : Value, schema.depth ≤ Value.depthMembers members →
    ∀ path, Succeeds (inner schema path) ↔ good schema

variable {good : Value → Prop}

theorem InnerAccepts.get? (hinner : InnerAccepts inner good members) {keyword : String} {schema : Value}
    (h : Entries.get? members keyword = some schema) (path : Path) :
    Succeeds (inner schema path) ↔ good schema :=
  hinner schema (Value.depth_le_depthMembers (Entries.mem_of_get? h)) path

theorem succeeds_properties (hinner : InnerAccepts inner good members) :
    Succeeds (Reader.properties inner members path) ↔ Shaped members "properties" ∧
      ∀ schemas, Entries.get? members "properties" = some (.obj schemas) →
        ∀ property ∈ schemas, good property.2 := by
  unfold Reader.properties
  rw [succeeds_bind, succeeds_keyword? rfl views_object]
  intro listed hlisted
  rcases keyword?_eq_ok.mp hlisted with ⟨habsent, rfl⟩ | ⟨value, schemas, hvalue, hview, rfl⟩
  · simp [habsent]
  · rw [Value.obj?_eq_some] at hview
    subst hview
    have hone : (∀ others, Entries.get? members "properties" = some (.obj others) →
        ∀ property ∈ others, good property.2) ↔ ∀ property ∈ schemas, good property.2 := by
      simp [hvalue]
    rw [hone]
    refine succeeds_bind_pure.trans (succeeds_mapM.trans ?_)
    refine forall₂_congr fun property hproperty => succeeds_bind_pure.trans ?_
    exact hinner _ (Child.property hvalue hproperty).depth_le _

theorem succeeds_additional (hinner : InnerAccepts inner good members) :
    Succeeds (Reader.additional inner members path) ↔
      ∀ schema, Entries.get? members "additionalProperties" = some schema → (∀ b, schema ≠ .bool b) →
        good schema := by
  unfold Reader.additional
  split
  · next habsent => simp [habsent]
  · next htrue => simp [htrue]
  · next hfalse => simp [hfalse]
  · next schema hnotTrue hnotFalse hschema =>
      have hbool : ∀ b, schema ≠ .bool b := by
        rintro (_ | _) rfl
        · exact hnotFalse rfl
        · exact hnotTrue rfl
      have hone : (∀ other, Entries.get? members "additionalProperties" = some other →
          (∀ b, other ≠ .bool b) → good other) ↔ good schema := by
        simp [hschema, hbool]
      rw [hone, succeeds_bind_pure]
      exact hinner.get? hschema _

/-- What the object keywords need to be read. -/
def ObjectGood (good : Value → Prop) (members : Members) : Prop :=
  ObjectShaped members ∧ ∀ schema, ObjectInside members schema → good schema

/-- What `items` needs to be read, if it is there. -/
def ItemsGood (good : Value → Prop) (members : Members) : Prop :=
  ∀ items, Entries.get? members "items" = some items → good items

theorem succeeds_objectKind (hinner : InnerAccepts inner good members) :
    Succeeds (objectKind inner members path) ↔ ObjectGood good members := by
  have hchain : Succeeds (objectKind inner members path) ↔ Succeeds (requiredNames members path) ∧
      Succeeds (Reader.properties inner members path) ∧ Succeeds (Reader.additional inner members path) := by
    unfold objectKind
    iterate 2 refine succeeds_bind fun _ _ => ?_
    exact succeeds_bind_pure
  rw [hchain, succeeds_requiredNames, succeeds_properties hinner, succeeds_additional hinner]
  constructor
  · rintro ⟨required, ⟨properties, hproperties⟩, hadditional⟩
    refine ⟨⟨required, properties⟩, ?_⟩
    intro schema hinside
    cases hinside with
    | additional h notTruth => exact hadditional schema h notTruth
    | property h mem => exact hproperties _ h _ mem
  · rintro ⟨⟨required, properties⟩, hinside⟩
    refine ⟨required, ⟨properties, ?_⟩, ?_⟩
    · intro schemas hschemas property hproperty
      exact hinside _ (.property hschemas hproperty)
    · intro schema hschema hbool
      exact hinside _ (.additional hschema hbool)

/-! ### Types -/

/-- What a type needs to be read: it is known, and the keywords that describe it are as they should be. -/
structure TypeGood (good : Value → Prop) (members : Members) (name : String) : Prop where
  known : name ∈ knownTypes
  items : name = "array" → Entries.has members "items" ∧ ItemsGood good members
  object : name = "object" → ObjectGood good members

theorem succeeds_typedKind (hinner : InnerAccepts inner good members) {name : String} :
    Succeeds (typedKind inner members name path) ↔ TypeGood good members name := by
  have hgood : TypeGood good members name ↔ name ∈ knownTypes ∧
      (name = "array" → Entries.has members "items" ∧ ItemsGood good members) ∧
      (name = "object" → ObjectGood good members) :=
    ⟨fun h => ⟨h.known, h.items, h.object⟩, fun h => ⟨h.1, h.2.1, h.2.2⟩⟩
  rw [hgood]
  unfold typedKind
  split
  case h_6 =>
    unfold ItemsGood Entries.has
    split
    · next items hitems =>
        rw [succeeds_bind_pure, hinner.get? hitems]
        simp [hitems, knownTypes]
    · next hnone => simp [hnone]
  case h_7 =>
    rw [succeeds_objectKind hinner]
    simp [knownTypes]
  case h_8 =>
    simp_all [knownTypes]
  all_goals simp [knownTypes]

/-- A rule stands on the kind of some type when constraints of its sort apply to one. -/
theorem any_appliesTo_kinds {names : List String} {kinds : List Kind}
    (h : names.zipIdx.mapM (fun (name, index) => typedKind inner members name (path.joinIndex "type" index)) =
      .ok kinds) {rule : Rule} :
    kinds.any rule.appliesTo ↔ ∃ name ∈ names, Constrains rule.subject name := by
  have hread : List.Forall₂ (TypedKind inner members) names kinds := by
    refine (forall₂_of_zipIdx (mapM_eq_ok.mp h)).imp ?_
    rintro name kind ⟨index, hread⟩
    exact typedKind_eq_ok hread
  rw [List.any_eq_true]
  exact exists_mem_iff hread fun _ _ hkind => hkind.appliesTo

/-- Several types are read as one is: each of them, and every constraint applies to some. -/
theorem succeeds_typedNode (hinner : InnerAccepts inner good members) {names : List String} {rules : List Rule} :
    Succeeds (typedNode inner members names rules path) ↔ (∀ name ∈ names, TypeGood good members name) ∧
      ∀ rule ∈ rules, ∃ name ∈ names, Constrains rule.subject name := by
  unfold typedNode
  split
  · next name =>
      have happlies : (∀ rule ∈ rules, ∃ other ∈ [name], Constrains rule.subject other) ↔
          ∀ rule ∈ rules, Constrains rule.subject name := by
        simp
      rw [List.forall_mem_singleton, happlies, ← succeeds_typedKind hinner]
      refine succeeds_bind fun kind hkind => ?_
      have hnone : rules.find? (fun rule => !rule.appliesTo kind) = none ↔
          ∀ rule ∈ rules, Constrains rule.subject name := by
        rw [List.find?_eq_none]
        simp [← (typedKind_eq_ok hkind).appliesTo]
      rw [← hnone]
      cases rules.find? fun rule => !rule.appliesTo kind <;> simp
  · have hkinds : Succeeds (names.zipIdx.mapM fun (name, index) =>
        typedKind inner members name (path.joinIndex "type" index)) ↔ ∀ name ∈ names, TypeGood good members name :=
      succeeds_mapM_zipIdx (fun name _ index => succeeds_typedKind hinner) 0
    rw [← hkinds]
    refine succeeds_bind fun kinds hkinds => ?_
    have hnone : rules.find? (fun rule => !kinds.any rule.appliesTo) = none ↔
        ∀ rule ∈ rules, ∃ name ∈ names, Constrains rule.subject name := by
      rw [List.find?_eq_none]
      refine forall₂_congr fun rule _ => ?_
      rw [← any_appliesTo_kinds hkinds]
      simp
    rw [← hnone]
    cases rules.find? fun rule => !kinds.any rule.appliesTo <;> simp

/-- **The types that count are read when they are as the grammar asks.** -/
theorem succeeds_typedNode_named (hinner : InnerAccepts inner good members) {names : List String}
    {rules : List Rule} (hnames : ∀ name, name ∈ names ↔ Named members name)
    (hrules : ∀ rule, rule ∈ rules ↔ States members rule) :
    Succeeds (typedNode inner members names rules path) ↔ TypesFit members ∧
      (Named members "object" → ObjectGood good members) ∧
      (Named members "array" → ItemsGood good members) := by
  rw [succeeds_typedNode hinner]
  simp only [hnames, hrules]
  constructor
  · rintro ⟨htypes, happlies⟩
    refine ⟨⟨?_, ?_, happlies⟩, ?_, ?_⟩
    · exact fun name hname => (htypes name hname).known
    · exact fun harray => ((htypes _ harray).items rfl).1
    · exact fun hobject => (htypes _ hobject).object rfl
    · exact fun harray => ((htypes _ harray).items rfl).2
  · rintro ⟨⟨known, items, applies⟩, hobject, harray⟩
    refine ⟨fun name hname => ⟨known name hname, ?_, ?_⟩, applies⟩
    · rintro rfl
      exact ⟨items hname, harray hname⟩
    · rintro rfl
      exact hobject hname

/-- The implied kind is read when what implies it is as the grammar asks. -/
theorem succeeds_impliedNode? (hinner : InnerAccepts inner good members) {rules : List Rule} :
    Succeeds (impliedNode? inner members rules path) ↔
      (HasObjectKeyword members → ObjectGood good members) ∧
      (¬ HasObjectKeyword members → ItemsGood good members) := by
  unfold impliedNode? HasObjectKeyword
  split
  · next hkeywords =>
      rw [Bool.or_eq_true] at hkeywords
      rw [succeeds_bind_pure, succeeds_objectKind hinner]
      simp [hkeywords]
  · next hkeywords =>
      rw [Bool.or_eq_true] at hkeywords
      unfold ItemsGood
      split
      · next items hitems =>
          rw [succeeds_bind_pure, hinner.get? hitems]
          simp [hkeywords, hitems]
      · next hnone => simp [hkeywords, hnone]

/-! ### All groups together -/

/-- Which of the own parts are read: the types, or what is implied, or neither. -/
theorem succeeds_ownParts {names : List String} {rules : List Rule} {given : Option Allowed}
    (hnames : ∀ name, name ∈ names ↔ Named members name) (hrules : ∀ rule, rule ∈ rules ↔ States members rule)
    (hallowed : allowed members path = .ok given) :
    Succeeds (ownParts inner members names rules given path) ↔ LiteralsFit members ∧
      (TypesRead members → Succeeds (typedNode inner members names rules path)) ∧
      (Implied members → Succeeds (impliedNode? inner members rules path)) := by
  have hnamed : names = [] ↔ ¬ ∃ name, Named members name := by
    rw [List.eq_nil_iff_forall_not_mem]
    simp [hnames]
  have hstated : rules = [] ↔ ¬ ∃ rule, States members rule := by
    rw [List.eq_nil_iff_forall_not_mem]
    simp [hrules]
  have hlisted := listedValues?_eq_none hallowed
  unfold ownParts TypesRead Implied
  cases given with
  | none =>
      have hnone : listedValues? members = none := hlisted.mpr rfl
      have hfree : LiteralsFit members := by
        intro _ values hvalues
        rw [hnone] at hvalues
        exact absurd hvalues (by simp)
      by_cases hempty : names = []
      · have hunnamed := hnamed.mp hempty
        rw [if_pos (List.isEmpty_iff.mpr hempty), succeeds_bind_pure]
        simp only [hfree, hunnamed, hnone, false_and, false_imp_iff, not_false_eq_true, true_and,
          true_imp_iff]
      · have hsome := not_not.mp (mt hnamed.mpr hempty)
        rw [if_neg (mt List.isEmpty_iff.mp hempty), succeeds_bind_pure]
        simp only [hfree, hsome, hnone, true_or, and_true, true_and, true_imp_iff, not_true, false_imp_iff]
  | some result =>
      have hsome : ¬ listedValues? members = none := mt hlisted.mp (by simp)
      have hcheck : Succeeds (checkTypes result names path) ↔ LiteralsFit members :=
        succeeds_checkTypes.trans (literalsFit_iff hallowed hnames).symm
      simp only [hsome, false_or, and_false, false_imp_iff, and_true]
      rw [← hcheck]
      refine succeeds_bind fun _ _ => ?_
      by_cases halone : names = [] ∨ rules = []
      · have hskipped : ¬ ((∃ name, Named members name) ∧ ∃ rule, States members rule) := by
          rw [hnamed, hstated, ← not_and_or] at halone
          exact halone
        rw [if_pos (by simpa using halone), iff_true_intro (succeeds_pure _)]
        simp only [hskipped, false_imp_iff]
      · have hread : (∃ name, Named members name) ∧ ∃ rule, States members rule := by
          rw [hnamed, hstated, ← not_and_or, not_not] at halone
          exact halone
        rw [if_neg (by simpa using halone), succeeds_bind_pure]
        simp only [hread, true_imp_iff, and_self]

/-- What is looked at is as it should be: the types, the object keywords and `items`. -/
theorem succeeds_ownParts_good (hinner : InnerAccepts inner good members) {names : List String}
    {rules : List Rule} {given : Option Allowed} (hnames : ∀ name, name ∈ names ↔ Named members name)
    (hrules : ∀ rule, rule ∈ rules ↔ States members rule) (hallowed : allowed members path = .ok given) :
    Succeeds (ownParts inner members names rules given path) ↔ LiteralsFit members ∧
      (TypesRead members → TypesFit members) ∧ (ObjectRead members → ObjectGood good members) ∧
      (ItemsRead members → ItemsGood good members) := by
  rw [succeeds_ownParts hnames hrules hallowed, succeeds_typedNode_named hinner hnames hrules,
    succeeds_impliedNode? hinner]
  unfold ObjectRead ItemsRead
  constructor
  · rintro ⟨literals, htypes, himplied⟩
    refine ⟨literals, fun hread => (htypes hread).1, ?_, ?_⟩
    · rintro (⟨hread, hobject⟩ | ⟨hread, hkeyword⟩)
      · exact (htypes hread).2.1 hobject
      · exact (himplied hread).1 hkeyword
    · rintro (⟨hread, harray⟩ | ⟨hread, hkeyword⟩)
      · exact (htypes hread).2.2 harray
      · exact (himplied hread).2 hkeyword
  · rintro ⟨literals, htypes, hobject, hitems⟩
    refine ⟨literals, fun hread => ⟨htypes hread, ?_, ?_⟩, fun hread => ⟨?_, ?_⟩⟩
    · exact fun hnamed => hobject (.inl ⟨hread, hnamed⟩)
    · exact fun hnamed => hitems (.inl ⟨hread, hnamed⟩)
    · exact fun hkeyword => hobject (.inr ⟨hread, hkeyword⟩)
    · exact fun hkeyword => hitems (.inr ⟨hread, hkeyword⟩)

theorem succeeds_branches (hinner : InnerAccepts inner good members) {keyword kind : String}
    (hshape : shape? keyword = some .list) :
    Succeeds (branches inner members keyword kind path) ↔ Shaped members keyword ∧
      Entries.get? members keyword ≠ some (.arr []) ∧
      ∀ schema, CompositeInside members keyword schema → good schema := by
  unfold branches CompositeInside
  rw [succeeds_bind, succeeds_keyword? hshape views_list]
  intro given hgiven
  split
  · simp [keyword?_eq_none.mp hgiven]
  · simp [get?_of_keyword_arr hgiven]
  · next schemas hfilled =>
      have hschemas := get?_of_keyword_arr hgiven
      have hne : schemas ≠ [] := fun heq => hfilled (by rw [heq])
      simp only [hschemas, Option.some.injEq, Value.arr.injEq, exists_eq_left', ne_eq, hne,
        not_false_eq_true, true_and]
      refine succeeds_bind_pure.trans (succeeds_mapM_zipIdx (fun schema hschema index => ?_) 0)
      exact hinner _ (depth_element_le hschemas hschema) _

/-- A schema object without a reference is read when its groups are, the own parts after what decides
which of them are looked at. -/
theorem succeeds_groups (hinner : InnerAccepts inner good members) (href : Entries.get? members "$ref" = none) :
    Succeeds (objectNode inner members path) ↔
      Shaped members "type" ∧ Shaped members "nullable" ∧ ConstraintsFit members ∧ ListedFit members ∧
      (LiteralsFit members ∧ (TypesRead members → TypesFit members) ∧
        (ObjectRead members → ObjectGood good members) ∧ (ItemsRead members → ItemsGood good members)) ∧
      Succeeds (branches inner members "oneOf" "union" path) ∧
      Succeeds (branches inner members "anyOf" "union" path) ∧
      Succeeds (branches inner members "allOf" "intersection" path) := by
  unfold objectNode
  rw [href]
  show Succeeds (types members path >>= _) ↔ _
  rw [← succeeds_types, ← succeeds_nullable, ← succeeds_rules, ← succeeds_allowed]
  refine succeeds_bind fun types htypes => ?_
  refine succeeds_bind fun isNullable _ => ?_
  refine succeeds_bind fun rules hrules => ?_
  refine succeeds_bind fun allowed hallowed => ?_
  rw [← succeeds_ownParts_good hinner (fun _ => mem_names_types htypes) (fun _ => mem_rules hrules) hallowed]
  iterate 3 refine succeeds_bind fun _ _ => ?_
  exact succeeds_bind_pure

/-- **A schema object is read when it is well formed and the schemas inside it are good.** -/
theorem succeeds_objectNode (hinner : InnerAccepts inner good members) :
    Succeeds (objectNode inner members path) ↔
      WellFormed members ∧ ∀ schema, Inside members schema → good schema := by
  by_cases href : Entries.get? members "$ref" = none
  · rw [succeeds_groups hinner href, succeeds_branches hinner rfl, succeeds_branches hinner rfl,
      succeeds_branches hinner rfl]
    constructor
    · rintro ⟨type, nullable, constraints, listed, ⟨literals, types, object, items⟩, oneOf, anyOf, allOf⟩
      refine ⟨⟨href, type, nullable, constraints, listed, literals, types, fun h => (object h).1, ?_, ?_⟩, ?_⟩
      · intro keyword hkeyword
        rcases composite_cases hkeyword with rfl | rfl | rfl
        · exact oneOf.1
        · exact anyOf.1
        · exact allOf.1
      · intro keyword hkeyword
        rcases composite_cases hkeyword with rfl | rfl | rfl
        · exact oneOf.2.1
        · exact anyOf.2.1
        · exact allOf.2.1
      · intro schema hinside
        cases hinside with
        | items read h => exact items read _ h
        | object read h => exact (object read).2 _ h
        | composite hkeyword h =>
            rcases composite_cases hkeyword with rfl | rfl | rfl
            · exact oneOf.2.2 _ h
            · exact anyOf.2.2 _ h
            · exact allOf.2.2 _ h
    · rintro ⟨h, hinside⟩
      have hcomposite : ∀ keyword ∈ composites, Shaped members keyword ∧
          Entries.get? members keyword ≠ some (.arr []) ∧
          ∀ schema, CompositeInside members keyword schema → good schema :=
        fun keyword hkeyword => ⟨h.composites keyword hkeyword, h.filled keyword hkeyword,
          fun schema hschema => hinside schema (.composite hkeyword hschema)⟩
      have hobject : ObjectRead members → ObjectGood good members :=
        fun hread => ⟨h.object hread, fun schema hschema => hinside schema (.object hread hschema)⟩
      have hitems : ItemsRead members → ItemsGood good members :=
        fun hread schema hschema => hinside schema (.items hread hschema)
      exact ⟨h.type, h.nullable, h.constraints, h.listed, ⟨h.literals, h.types, hobject, hitems⟩,
        hcomposite _ (by decide), hcomposite _ (by decide), hcomposite _ (by decide)⟩
  · obtain ⟨reference, hreference⟩ := Option.ne_none_iff_exists'.mp href
    have hno : ¬ WellFormed members := fun h => href h.noReference
    unfold objectNode
    rw [hreference]
    simp [hno]

/-- A schema is read within its depth when it belongs to the grammar. -/
theorem succeeds_readWithin {depth : Nat} {schema : Value} (hdepth : schema.depth ≤ depth) (path : Path) :
    Succeeds (readWithin depth schema path) ↔ Grammatical schema := by
  induction depth generalizing schema path with
  | zero =>
      cases schema with
      | obj members => simp [Value.depth] at hdepth
      | _ => simp [readWithin, not_grammatical]
  | succ depth ih =>
      cases schema with
      | obj members =>
          have hinner : InnerAccepts (readWithin depth) Grammatical members := by
            intro schema hschema path
            simp only [Value.depth] at hdepth
            exact ih (by omega) path
          rw [grammatical_obj]
          exact succeeds_objectNode hinner
      | _ => simp [readWithin, not_grammatical]

end Reader

/-- **Exactly the schemas of the grammar are accepted.** -/
theorem read_succeeds_iff_grammatical (schema : Json.Value) :
    (∃ node, read schema = .ok node) ↔ Grammar.Grammatical schema :=
  Reader.succeeds_readWithin (Nat.le_refl _) .root

end Schema

end ZodRoutes
