/-
Places in a schema.

The place of an error is a list of segments, and they can be followed in two ways.  Schema by schema, each
keyword that holds schemas leads from a schema to one inside it, and `type` with an index stays where it is:
it picks one of the types of the same schema.  As a pointer, each segment leads to a member or an element,
whatever it means.  The two ways part below a listed type, where the pointer arrives at the name of a type,
which is a text and has nothing inside.
-/
import ZodRoutes.Proofs.Json.Pointer
import ZodRoutes.Schema.Reader

namespace ZodRoutes.Schema

open Json (Value)
open Reader (Members Types)

/-- The composite keywords, each of which lists schemas. -/
def composites : List String := ["oneOf", "anyOf", "allOf"]

/-- A schema stands directly inside a schema object, these segments below it. -/
inductive Child (members : Members) : List String → Value → Prop
  | items {schema : Value} (h : Entries.get? members "items" = some schema) :
      Child members ["items"] schema
  | additional {schema : Value} (h : Entries.get? members "additionalProperties" = some schema) :
      Child members ["additionalProperties"] schema
  | property {schemas : List (String × Value)} {name : String} {schema : Value}
      (h : Entries.get? members "properties" = some (.obj schemas)) (mem : (name, schema) ∈ schemas) :
      Child members ["properties", name] schema
  | branch {keyword : String} {schemas : List Value} {index : Nat} {schema : Value}
      (composite : keyword ∈ composites) (h : Entries.get? members keyword = some (.arr schemas))
      (branch : schemas[index]? = some schema) : Child members [keyword, toString index] schema

/-- The place of a schema that segments lead to, schema by schema: `type` with an index stays at the schema
that it is a keyword of. -/
def walk? (schema : Value) : List String → Option Value
  | [] => some schema
  | keyword :: rest =>
    if keyword = "items" ∨ keyword = "additionalProperties" then (schema.step? keyword).bind (walk? · rest)
    else match rest with
      | [] => none
      | key :: rest =>
        if keyword = "type" then ((schema.step? keyword).bind (·.step? key)).bind fun _ => walk? schema rest
        else if keyword = "properties" ∨ keyword ∈ composites then
          ((schema.step? keyword).bind (·.step? key)).bind (walk? · rest)
        else none

/-- Whether a place goes on below a listed type. -/
def goesOnBelowType : List String → Bool
  | [] => false
  | keyword :: rest =>
    if keyword = "items" ∨ keyword = "additionalProperties" then goesOnBelowType rest
    else match rest with
      | [] => false
      | _ :: rest => if keyword = "type" then !rest.isEmpty else goesOnBelowType rest

/-- The type of that name has that index among the types that count. -/
structure AtType (members : Members) (listed : List String) (index : Nat) (name : String) : Prop where
  type : Entries.get? members "type" = some (.arr (listed.map .str))
  counted : (Types.ofListed listed).names[index]? = some name

variable {members : Members} {steps : List String} {schema : Value} {listed : List String} {index : Nat}
  {name : String}

/-! ### Schemas inside -/

theorem composite_cases {keyword : String} (h : keyword ∈ composites) :
    keyword = "oneOf" ∨ keyword = "anyOf" ∨ keyword = "allOf" := by
  simpa [composites] using h

/-- A schema inside is nested less deeply. -/
theorem Child.depth_le (h : Child members steps schema) : schema.depth ≤ Value.depthMembers members := by
  cases h with
  | items h | additional h => exact Value.depth_le_depthMembers (Entries.mem_of_get? h)
  | property h mem =>
      have hinside := Value.depth_le_depthMembers mem
      have hmember := Value.depth_le_depthMembers (Entries.mem_of_get? h)
      simp only [Value.depth] at hmember
      omega
  | branch _ h branch =>
      have hinside := Value.depth_le_depthList (List.mem_of_getElem? branch)
      have hmember := Value.depth_le_depthMembers (Entries.mem_of_get? h)
      simp only [Value.depth] at hmember
      omega

theorem Child.namesDistinct (h : Child members steps schema) (hdistinct : (Value.obj members).namesDistinct) :
    schema.namesDistinct := by
  cases h with
  | items h | additional h => exact Value.namesDistinct_of_get? hdistinct h
  | property h mem =>
      exact (Value.namesDistinct_obj.mp (Value.namesDistinct_of_get? hdistinct h)).2 _ mem
  | branch _ h branch =>
      exact Value.namesDistinct_arr.mp (Value.namesDistinct_of_get? hdistinct h) _ (List.mem_of_getElem? branch)

/-! ### Following both ways -/

/-- The segments below a schema object lead to the schema inside it. -/
theorem Child.follow? (h : Child members steps schema) (hdistinct : (Value.obj members).namesDistinct)
    (rest : List String) : (Value.obj members).follow? (steps ++ rest) = schema.follow? rest := by
  cases h with
  | items h | additional h => simp [Value.follow?, Value.step?, h]
  | property h mem =>
      have hnames := (Value.namesDistinct_obj.mp (Value.namesDistinct_of_get? hdistinct h)).1
      simp [Value.follow?, Value.step?, h, Entries.get?_of_mem hnames mem]
  | branch _ h branch => simp [Value.follow?, Value.step?, h, branch]

theorem Child.walk? (h : Child members steps schema) (hdistinct : (Value.obj members).namesDistinct)
    (rest : List String) : walk? (.obj members) (steps ++ rest) = Schema.walk? schema rest := by
  rw [Schema.walk?.eq_def]
  cases h with
  | items h | additional h => simp [Value.step?, h]
  | property h mem =>
      have hnames := (Value.namesDistinct_obj.mp (Value.namesDistinct_of_get? hdistinct h)).1
      simp [Value.step?, h, Entries.get?_of_mem hnames mem]
  | branch composite h branch =>
      rcases composite_cases composite with rfl | rfl | rfl <;>
        simp [composites, Value.step?, h, branch]

theorem Child.goesOnBelowType (h : Child members steps schema) (rest : List String) :
    goesOnBelowType (steps ++ rest) = Schema.goesOnBelowType rest := by
  rw [Schema.goesOnBelowType.eq_def]
  cases h with
  | items h | additional h | property h mem => simp
  | branch composite h branch =>
      rcases composite_cases composite with rfl | rfl | rfl <;> simp

/-- The place of a schema inside does not end in a type and an index. -/
theorem Child.ne_type (h : Child members steps schema) (front : List String) (index : Nat) :
    steps ≠ front ++ ["type", toString index] := by
  intro heq
  have hreverse := congrArg List.reverse heq
  cases h with
  | items h | additional h => simp at hreverse
  | property h mem => simp at hreverse
  | branch composite h branch =>
      rcases composite_cases composite with rfl | rfl | rfl <;> simp at hreverse

/-! ### Listed types -/

theorem length_distinct_le (names : List String) : (Entries.distinct names).length ≤ names.length := by
  induction names using List.reverseRecOn with
  | nil => exact Nat.le_refl _
  | append_singleton front name ih =>
      rw [Entries.distinct_concat, List.length_append]
      by_cases h : name ∈ Entries.distinct front
      · rw [if_pos h]
        omega
      · rw [if_neg h, List.length_append]
        exact Nat.add_le_add_right ih _

/-- No more types count than are listed. -/
theorem length_names_le (listed : List String) : (Types.ofListed listed).names.length ≤ listed.length := by
  unfold Types.ofListed
  by_cases h : 1 < listed.length
  · rw [if_pos h]
    exact Nat.le_trans (length_distinct_le _) (List.length_filter_le ..)
  · exact Nat.le_of_eq (by rw [if_neg h])

namespace AtType

theorem index_lt (h : AtType members listed index name) : index < listed.length := by
  have hindex := (List.getElem?_eq_some_iff.mp h.counted).1
  exact Nat.lt_of_lt_of_le hindex (length_names_le listed)

/-- The index of a type leads to the name that is listed there. -/
theorem step? (h : AtType members listed index name) :
    ((Value.obj members).step? "type").bind (·.step? (toString index)) =
      some (.str (listed.get ⟨index, h.index_lt⟩)) := by
  simp [Value.step?, h.type, h.index_lt]

theorem walk? (h : AtType members listed index name) (rest : List String) :
    walk? (.obj members) ("type" :: toString index :: rest) = Schema.walk? (.obj members) rest := by
  rw [Schema.walk?, if_neg (by decide), if_pos rfl, h.step?, Option.bind_some]

theorem follow? (h : AtType members listed index name) (rest : List String) :
    (Value.obj members).follow? ("type" :: toString index :: rest) =
      (Value.str (listed.get ⟨index, h.index_lt⟩)).follow? rest := by
  have hstep := h.step?
  rw [Value.follow?]
  cases htype : (Value.obj members).step? "type" with
  | none => simp [htype] at hstep
  | some value =>
      rw [htype, Option.bind_some] at hstep
      rw [Option.bind_some, Value.follow?, hstep, Option.bind_some]

end AtType

theorem goesOnBelowType_type (index : Nat) (rest : List String) :
    goesOnBelowType ("type" :: toString index :: rest) = !rest.isEmpty := by
  rw [goesOnBelowType, if_neg (by decide), if_pos rfl]

end ZodRoutes.Schema
