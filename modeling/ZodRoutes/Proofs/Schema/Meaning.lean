/-
What a schema object says of a value.

The meaning of a schema object is told from its keywords alone.  Each keyword group constrains the value by
itself, and a value meets the schema when it meets every group that is there.  Null stands apart: some
keywords admit it whatever the other groups say.

The groups are the listed values, the types with the constraints that apply to each, the object or array
that keywords imply where neither of these is there, and the three composites.  Schemas inside a schema
object enter through `meets`, which the depth of the schema bounds in the end, as it does for the reader.
-/
import ZodRoutes.Proofs.Schema.Accepts
import ZodRoutes.Schema.Reader

namespace ZodRoutes.Schema.Meaning

open Decimal (Double)
open Json (Value)
open Reader (Members)

variable (holds : Rule → Value → Prop) (meets : Value → Value → Prop) (members : Members)
  (value : Value)

/-! ### Types -/

/-- The names that the `type` keyword lists. -/
def listedTypes : List String :=
  match Entries.get? members "type" with
  | some (.str name) => [name]
  | some (.arr names) => names.filterMap Value.str?
  | _ => []

/-- Null is listed in a list of two or more types. -/
def NullListed : Prop :=
  1 < (listedTypes members).length ∧ "null" ∈ listedTypes members

/-- A type that counts: one that is listed, null among several apart. -/
def Named (name : String) : Prop :=
  name ∈ listedTypes members ∧ ¬ (name = "null" ∧ NullListed members)

/-! ### Constraints -/

/-- A keyword has that number. -/
def HasNumber (keyword : String) (x : Double) : Prop :=
  ∃ n, Entries.get? members keyword = some (.num n) ∧ n.toDouble = x

/-- A keyword has that count. -/
def HasCount (keyword : String) (count : Nat) : Prop :=
  ∃ n, Entries.get? members keyword = some (.num n) ∧ n.count? = some count

/-- A keyword is there and true. -/
def IsTrue (keyword : String) : Prop :=
  Entries.get? members keyword = some (.bool true)

/-- The schema states a constraint.  A bound is exclusive when the exclusive keyword next to it is true,
and a number there is an exclusive bound of its own. -/
def States : Rule → Prop
  | .format f => ∃ name, Entries.get? members "format" = some (.str name) ∧ Format.ofKeyword? name = some f
  | .minLength count => HasCount members "minLength" count
  | .maxLength count => HasCount members "maxLength" count
  | .pattern source => Entries.get? members "pattern" = some (.str source)
  | .min x => HasNumber members "minimum" x ∧ ¬ IsTrue members "exclusiveMinimum"
  | .max x => HasNumber members "maximum" x ∧ ¬ IsTrue members "exclusiveMaximum"
  | .greaterThan x => HasNumber members "exclusiveMinimum" x ∨
      (IsTrue members "exclusiveMinimum" ∧ HasNumber members "minimum" x)
  | .lessThan x => HasNumber members "exclusiveMaximum" x ∨
      (IsTrue members "exclusiveMaximum" ∧ HasNumber members "maximum" x)
  | .multipleOf x => HasNumber members "multipleOf" x
  | .minItems count => HasCount members "minItems" count
  | .maxItems count => HasCount members "maxItems" count

/-- Whether the constraints on a sort of values apply to a type. -/
def Constrains : Subject → String → Prop
  | .text, name => name = "string"
  | .number, name => name = "number" ∨ name = "integer"
  | .list, name => name = "array"

/-! ### Groups -/

/-- The listed values: the `const` value if it is there, else the `enum` values. -/
def listedValues? : Option (List Value) :=
  match Entries.get? members "const", Entries.get? members "enum" with
  | some value, _ => some [value]
  | none, some (.arr values) => some values
  | none, _ => none

/-- Some keyword admits null. -/
def AdmitsNull : Prop :=
  IsTrue members "nullable" ∨ NullListed members ∨ ∃ values, listedValues? members = some values ∧ .null ∈ values

/-- The value is one of the listed values. -/
def MeetsListed : Prop :=
  ∀ values, listedValues? members = some values → ∃ listed ∈ values, listed.Same value

/-- The properties by name; a name given twice counts as it is given last. -/
def properties : Entries Value :=
  match Entries.get? members "properties" with
  | some (.obj schemas) => Entries.ofList schemas
  | _ => []

/-- The names that are listed as required.  Of these only the names of properties count: `MembersFit.present`
asks for no others, and a schema object that lists another is read as if it did not (`readAt_unlisted`, beside
what is said of required names). -/
def required : List String :=
  match Entries.get? members "required" with
  | some (.arr names) => names.filterMap Value.str?
  | _ => []

/-- What members that are no properties must meet; a truth value says no more than whether they may be
there. -/
def additional : Option Value :=
  match Entries.get? members "additionalProperties" with
  | some (.bool _) => none
  | other => other

/-- Whether members that are no properties are refused. -/
def closed : Bool :=
  match Entries.get? members "additionalProperties" with
  | some (.bool false) => true
  | _ => false

/-- The value is an object that the object keywords allow. -/
def MeetsObject : Prop :=
  ∃ fields, value = .obj fields ∧
    MembersFit meets (properties members) (required members) (additional members) (closed members) fields

/-- The value is an array whose elements meet `items`. -/
def MeetsArray : Prop :=
  ∃ items elements, Entries.get? members "items" = some items ∧ value = .arr elements ∧
    ∀ element ∈ elements, meets items element

/-- The value is of the named type. -/
def IsOfType (name : String) : Prop :=
  (name = "string" ∧ ∃ s, value = .str s) ∨
  (name = "number" ∧ ∃ n, value = .num n) ∨
  (name = "integer" ∧ ∃ n, value = .num n ∧ n.isWhole) ∨
  (name = "boolean" ∧ ∃ b, value = .bool b) ∨
  (name = "null" ∧ value = .null) ∨
  (name = "object" ∧ MeetsObject meets members value) ∨
  (name = "array" ∧ MeetsArray meets members value)

/-- The value satisfies every constraint that the schema states on values of a type. -/
def Satisfies (name : String) : Prop :=
  ∀ rule, States members rule → Constrains rule.subject name → holds rule value

/-- The value is of one of the types that count, with the constraints on it. -/
def MeetsTypes : Prop :=
  (∃ name, Named members name) →
    ∃ name, Named members name ∧ IsOfType meets members value name ∧ Satisfies holds members value name

/-- Where no type counts and no values are listed, the value is the object that object keywords imply, or
else the array that `items` implies. -/
def MeetsImplied : Prop :=
  (¬ ∃ name, Named members name) → listedValues? members = none →
    if Entries.has members "properties" ∨ Entries.has members "additionalProperties" then
      MeetsObject meets members value
    else Entries.has members "items" → MeetsArray meets members value ∧ Satisfies holds members value "array"

/-- The value meets some schema of a composite. -/
def MeetsSome (keyword : String) : Prop :=
  ∀ schemas, Entries.get? members keyword = some (.arr schemas) → ∃ schema ∈ schemas, meets schema value

/-- The value meets every schema of a composite. -/
def MeetsEvery (keyword : String) : Prop :=
  ∀ schemas, Entries.get? members keyword = some (.arr schemas) → ∀ schema ∈ schemas, meets schema value

/-- The value meets every group. -/
structure MeetsGroups : Prop where
  listed : MeetsListed members value
  types : MeetsTypes holds meets members value
  implied : MeetsImplied holds meets members value
  oneOf : MeetsSome meets members value "oneOf"
  anyOf : MeetsSome meets members value "anyOf"
  allOf : MeetsEvery meets members value "allOf"

/-- **A value meets a schema object**: it is null and admitted, or it meets every group. -/
def MeetsMembers : Prop :=
  (value = .null ∧ AdmitsNull members) ∨ MeetsGroups holds meets members value

/-- A value meets a schema that is nested at most `depth` deep. -/
def MeetsWithin (holds : Rule → Value → Prop) : Nat → Value → Value → Prop
  | depth + 1, .obj members, value => MeetsMembers holds (MeetsWithin holds depth) members value
  | _, _, _ => False

/-! ### The depth does not matter

Only schemas that stand inside a schema object are asked, and these are nested less deeply, so any depth
from that of the schema on gives the same meaning.
-/

variable {holds meets members value} {meets' : Value → Value → Prop}

/-- A member of an object inside it is nested less deeply than the object. -/
theorem depth_property_le {name : String} {schema : Value}
    (h : (name, schema) ∈ properties members) : schema.depth ≤ Value.depthMembers members := by
  unfold properties at h
  split at h
  · next schemas hschemas =>
      have hinside := Value.depth_le_depthMembers (Entries.mem_of_mem_ofList h)
      have hmember := Value.depth_le_depthMembers (Entries.mem_of_get? hschemas)
      simp only [Value.depth] at hmember
      omega
  · simp at h

theorem depth_element_le {keyword : String} {schemas : List Value} {schema : Value}
    (hschemas : Entries.get? members keyword = some (.arr schemas)) (h : schema ∈ schemas) :
    schema.depth ≤ Value.depthMembers members := by
  have hinside := Value.depth_le_depthList h
  have hmember := Value.depth_le_depthMembers (Entries.mem_of_get? hschemas)
  simp only [Value.depth] at hmember
  omega

theorem depth_additional_le {schema : Value} (h : schema ∈ additional members) :
    schema.depth ≤ Value.depthMembers members := by
  unfold additional at h
  split at h
  · simp at h
  · exact Value.depth_le_depthMembers (Entries.mem_of_get? h)

/-- The schemas inside are asked the same questions. -/
def AgreeInside (meets meets' : Value → Value → Prop) (members : Members) : Prop :=
  ∀ schema : Value, schema.depth ≤ Value.depthMembers members →
    ∀ value, meets schema value ↔ meets' schema value

theorem AgreeInside.object (h : AgreeInside meets meets' members) :
    MeetsObject meets members value ↔ MeetsObject meets' members value := by
  unfold MeetsObject
  refine exists_congr fun fields => and_congr_right fun _ => ?_
  refine MembersFit.congr ?_ (fun _ _ => Iff.rfl) (fun value => ?_) Iff.rfl
  · rw [Entries.Corresponds, List.forall₂_same]
    exact fun property hproperty => ⟨rfl, h _ (depth_property_le hproperty)⟩
  · exact forall₂_congr fun schema hschema => h _ (depth_additional_le hschema) value

theorem AgreeInside.array (h : AgreeInside meets meets' members) :
    MeetsArray meets members value ↔ MeetsArray meets' members value := by
  unfold MeetsArray
  refine exists₂_congr fun items elements => and_congr_right fun hitems => ?_
  have hdepth := Value.depth_le_depthMembers (Entries.mem_of_get? hitems)
  exact and_congr_right fun _ => forall₂_congr fun element _ => h _ hdepth element

theorem AgreeInside.some (h : AgreeInside meets meets' members) {keyword : String} :
    MeetsSome meets members value keyword ↔ MeetsSome meets' members value keyword := by
  unfold MeetsSome
  refine forall₂_congr fun schemas hschemas => exists_congr fun schema => ?_
  exact and_congr_right fun hschema => h _ (depth_element_le hschemas hschema) value

theorem AgreeInside.every (h : AgreeInside meets meets' members) {keyword : String} :
    MeetsEvery meets members value keyword ↔ MeetsEvery meets' members value keyword := by
  unfold MeetsEvery
  refine forall₂_congr fun schemas hschemas => forall₂_congr fun schema hschema => ?_
  exact h _ (depth_element_le hschemas hschema) value

theorem AgreeInside.meetsMembers (h : AgreeInside meets meets' members) :
    MeetsMembers holds meets members value ↔ MeetsMembers holds meets' members value := by
  have htypes : MeetsTypes holds meets members value ↔ MeetsTypes holds meets' members value := by
    unfold MeetsTypes IsOfType
    rw [h.object, h.array]
  have himplied : MeetsImplied holds meets members value ↔ MeetsImplied holds meets' members value := by
    unfold MeetsImplied
    rw [h.object, h.array]
  have hgroups : MeetsGroups holds meets members value ↔ MeetsGroups holds meets' members value := by
    constructor
    · rintro ⟨listed, types, implied, oneOf, anyOf, allOf⟩
      exact ⟨listed, htypes.mp types, himplied.mp implied, h.some.mp oneOf, h.some.mp anyOf,
        h.every.mp allOf⟩
    · rintro ⟨listed, types, implied, oneOf, anyOf, allOf⟩
      exact ⟨listed, htypes.mpr types, himplied.mpr implied, h.some.mpr oneOf, h.some.mpr anyOf,
        h.every.mpr allOf⟩
  unfold MeetsMembers
  rw [hgroups]

/-- Any depth from that of the schema on gives the same meaning. -/
theorem meetsWithin_congr {depth other : Nat} {schema : Value} (h : schema.depth ≤ depth)
    (hother : schema.depth ≤ other) (value : Value) :
    MeetsWithin holds depth schema value ↔ MeetsWithin holds other schema value := by
  induction depth generalizing other schema value with
  | zero =>
      cases schema with
      | obj members => simp [Value.depth] at h
      | _ => simp [MeetsWithin]
  | succ depth ih =>
      cases schema with
      | obj members =>
          simp only [Value.depth] at h hother
          obtain ⟨below, rfl⟩ : ∃ below, other = below + 1 := ⟨other - 1, by omega⟩
          unfold MeetsWithin
          refine AgreeInside.meetsMembers fun inside hinside => ?_
          exact ih (by omega) (by omega)
      | _ => simp [MeetsWithin]

end Meaning

/-- A value meets a schema. -/
def Meets (holds : Rule → Json.Value → Prop) (schema value : Json.Value) : Prop :=
  Meaning.MeetsWithin holds schema.depth schema value

/-- **The meaning of a schema object in terms of the schemas inside it.** -/
theorem meets_obj {holds : Rule → Json.Value → Prop} {members : Reader.Members} {value : Json.Value} :
    Meets holds (.obj members) value ↔ Meaning.MeetsMembers holds (Meets holds) members value :=
  Meaning.AgreeInside.meetsMembers fun _ hinside => Meaning.meetsWithin_congr hinside (Nat.le_refl _)

end ZodRoutes.Schema
