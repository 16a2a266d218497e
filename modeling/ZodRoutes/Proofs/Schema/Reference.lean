/-
Schemas without references.

A schema object that is a reference is reported before anything else of it is read.  Leaving all references
out of a schema therefore changes what is read in one way only: where the schema is not accepted because of a
reference, it may be accepted now, or another error may come to light.
-/
import ZodRoutes.Proofs.Schema.Alike

namespace ZodRoutes.Schema

open Json (Value)
open Reader
open Steps

mutual

/-- A schema without references, at any depth. -/
def withoutReferences : Value → Value
  | .obj members => .obj (membersWithout members)
  | value => value

/-- The members of a schema object without references. -/
def membersWithout : List (String × Value) → List (String × Value)
  | [] => []
  | (keyword, value) :: rest =>
    if keyword = "$ref" then membersWithout rest
    else (keyword, keywordWithout keyword value) :: membersWithout rest

/-- What a keyword holds, without references in the schemas there. -/
def keywordWithout (keyword : String) : Value → Value
  | .obj members =>
    if keyword = "properties" then .obj (propertiesWithout members)
    else if keyword ∈ ["items", "additionalProperties"] then .obj (membersWithout members)
    else .obj members
  | .arr items => if keyword ∈ composites then .arr (branchesWithout items) else .arr items
  | value => value

/-- The schemas of properties without references. -/
def propertiesWithout : List (String × Value) → List (String × Value)
  | [] => []
  | (name, schema) :: rest => (name, withoutReferences schema) :: propertiesWithout rest

/-- The schemas of a list without references. -/
def branchesWithout : List Value → List Value
  | [] => []
  | schema :: rest => withoutReferences schema :: branchesWithout rest

end

/-- A schema object is a reference. -/
def SchemaError.Unresolved (e : SchemaError) : Prop :=
  ∃ text, e.fault = .unresolvedRef text

variable {members : Members} {schema value : Value} {keyword : String}

/-! ### What the keywords hold -/

theorem propertiesWithout_eq (schemas : List (String × Value)) :
    propertiesWithout schemas = schemas.map fun property => (property.1, withoutReferences property.2) := by
  induction schemas with
  | nil => rfl
  | cons property rest ih => rw [propertiesWithout, ih, List.map_cons]

theorem branchesWithout_eq (schemas : List Value) : branchesWithout schemas = schemas.map withoutReferences := by
  induction schemas with
  | nil => rfl
  | cons schema rest ih => rw [branchesWithout, ih, List.map_cons]

theorem get?_membersWithout (h : keyword ≠ "$ref") :
    Entries.get? (membersWithout members) keyword = (Entries.get? members keyword).map (keywordWithout keyword) := by
  induction members with
  | nil => rfl
  | cons member rest ih =>
      obtain ⟨other, value⟩ := member
      rw [membersWithout, Entries.get?_cons]
      by_cases hreference : other = "$ref"
      · have hne : keyword ≠ other := hreference ▸ h
        rw [if_pos hreference, if_neg hne, ih]
      · rw [if_neg hreference, Entries.get?_cons]
        by_cases hkeyword : keyword = other
        · rw [if_pos hkeyword, if_pos hkeyword, hkeyword, Option.map_some]
        · rw [if_neg hkeyword, if_neg hkeyword, ih]

theorem get?_membersWithout_reference : Entries.get? (membersWithout members) "$ref" = none := by
  induction members with
  | nil => rfl
  | cons member rest ih =>
      obtain ⟨other, value⟩ := member
      rw [membersWithout]
      by_cases hother : other = "$ref"
      · rw [if_pos hother, ih]
      · rw [if_neg hother, Entries.get?_cons, if_neg (Ne.symm hother), ih]

/-- Other keywords hold no schemas. -/
theorem keywordWithout_of_other (h : keyword ∉ schemaKeywords) : keywordWithout keyword value = value := by
  have hsingle : keyword ∉ ["items", "additionalProperties"] := by
    intro hmem
    rw [List.mem_cons, List.mem_singleton] at hmem
    rcases hmem with rfl | rfl <;> exact h (by decide)
  have hproperties : keyword ≠ "properties" := by
    rintro rfl
    exact h (by decide)
  have hcomposite : keyword ∉ composites := fun hmem => h (List.mem_append_right _ hmem)
  cases value with
  | obj members => rw [keywordWithout, if_neg hproperties, if_neg hsingle]
  | arr items => rw [keywordWithout, if_neg hcomposite]
  | _ => rfl

/-- A keyword that holds one schema holds it without references. -/
theorem keywordWithout_of_single (h : keyword ∈ ["items", "additionalProperties"]) :
    keywordWithout keyword value = withoutReferences value := by
  have hproperties : keyword ≠ "properties" := by
    rintro rfl
    exact absurd h (by decide)
  have hcomposite : keyword ∉ composites := by
    rw [List.mem_cons, List.mem_singleton] at h
    rcases h with rfl | rfl <;> decide
  cases value with
  | obj members => rw [keywordWithout, if_neg hproperties, if_pos h, withoutReferences]
  | arr items => rw [keywordWithout, if_neg hcomposite, withoutReferences]; simp
  | _ => rfl

/-! ### What is read -/

/-- Truth values are no schemas, with or without references. -/
theorem withoutReferences_eq_bool (b : Bool) : schema = .bool b ↔ withoutReferences schema = .bool b := by
  cases schema <;> simp [withoutReferences]

variable {related : Value → Value → Prop}

/-- What a keyword holds is alike without references, when the schemas inside are related to themselves
without references. -/
theorem holdsAlike_without (hrelated : ∀ steps schema, Child members steps schema →
      related schema (withoutReferences schema)) (hkeyword : keyword ∈ schemaKeywords)
    (hvalue : Entries.get? members keyword = some value) :
    HoldsAlike related keyword value (keywordWithout keyword value) := by
  rcases List.mem_append.mp hkeyword with hfirst | hcomposite
  · rcases List.mem_cons.mp hfirst with rfl | hsingle
    · cases value with
      | obj schemas =>
          rw [keywordWithout, if_pos rfl, propertiesWithout_eq]
          refine .object (List.forall₂_map_right_iff.mpr (List.forall₂_same.mpr ?_))
          exact fun property hmem => ⟨rfl, hrelated _ _ (.property hvalue hmem)⟩
      | _ => exact .other rfl
    · have hsingle' : keyword ∈ ["items", "additionalProperties"] := by
        rw [List.mem_cons, List.mem_singleton] at hsingle ⊢
        exact hsingle.symm
      rw [keywordWithout_of_single hsingle']
      rw [List.mem_cons, List.mem_singleton] at hsingle
      rcases hsingle with rfl | rfl
      · exact hrelated _ _ (.additional hvalue)
      · exact hrelated _ _ (.items hvalue)
  · rw [holdsAlike_composite hcomposite]
    cases value with
    | arr schemas =>
        rw [keywordWithout, if_pos hcomposite, branchesWithout_eq]
        refine .list (List.forall₂_map_right_iff.mpr (List.forall₂_same.mpr ?_))
        intro schema hmem
        obtain ⟨index, hindex⟩ := List.mem_iff_getElem?.mp hmem
        exact hrelated _ _ (.branch hcomposite hvalue hindex)
    | obj schemas =>
        rcases composite_cases hcomposite with rfl | rfl | rfl <;> exact .other rfl
    | _ => exact .other rfl

/-- A schema object that is no reference is like itself without the references inside. -/
theorem alike_without (hreference : Entries.get? members "$ref" = none)
    (hrelated : ∀ steps schema, Child members steps schema → related schema (withoutReferences schema)) :
    Alike related members (membersWithout members) := by
  refine alike_of_schemas ?_ (hreference.trans get?_membersWithout_reference.symm) ?_
  · intro keyword hnot
    rw [List.mem_cons, not_or] at hnot
    rw [get?_membersWithout hnot.1]
    cases Entries.get? members keyword with
    | none => rfl
    | some value => rw [Option.map_some, keywordWithout_of_other hnot.2]
  · intro keyword hkeyword
    have hne : keyword ≠ "$ref" := by
      rintro rfl
      exact absurd hkeyword (by decide)
    rw [get?_membersWithout hne]
    cases hvalue : Entries.get? members keyword with
    | none => exact .none
    | some value => exact .some (holdsAlike_without hrelated hkeyword hvalue)

/-- **Without its references a schema is read as before, unless a reference was reported.** -/
theorem readAt_withoutReferences (schema : Value) (path : Path) :
    EndsAs SchemaError.Unresolved (readAt schema path) (readAt (withoutReferences schema) path) := by
  -- The schemas inside are nested less deeply.
  induction hdepth : schema.depth using Nat.strongRecOn generalizing schema path with
  | ind depth ih =>
      cases schema with
      | obj members =>
          rw [withoutReferences, readAt_obj, readAt_obj]
          cases hreference : Entries.get? members "$ref" with
          | some reference =>
              unfold objectNode
              rw [hreference]
              exact .of_error ⟨_, rfl⟩
          | none =>
              have hsupports : Supports SchemaError.Unresolved readAt readAt fun schema schema' =>
                  schema.depth ≤ Value.depthMembers members ∧ schema' = withoutReferences schema := by
                refine ⟨?_, ?_⟩
                · rintro schema _ ⟨hinside, rfl⟩ path
                  refine ih schema.depth ?_ schema path rfl
                  rw [← hdepth, Value.depth]
                  omega
                · rintro schema _ ⟨-, rfl⟩ b
                  exact withoutReferences_eq_bool b
              exact objectNode_alike hsupports
                (alike_without hreference fun _ _ hchild => ⟨hchild.depth_le, rfl⟩) path
      | _ => exact .refl _

end ZodRoutes.Schema
