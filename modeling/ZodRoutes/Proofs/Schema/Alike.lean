/-
Schema objects that are read alike.

Every keyword group of a schema object is read from the values of its own keywords, wherever they stand in
the object, and the schemas inside are read by another reader.  So two schema objects end the same when each
group is read as the same on both sides and the schemas inside end the same, one by one; if the ones on the
first side may also fail in some way of their own, so may the first schema object.

The depth that bounds the recursion is one more thing that does not matter: a schema object is read with the
schemas inside it read as if each stood alone.
-/
import ZodRoutes.Proofs.Schema.Place
import ZodRoutes.Proofs.Schema.Reading

namespace ZodRoutes.Schema.Reader

open Json (Value)
open Steps

variable {p : SchemaError → Prop} {related : Value → Value → Prop} {inner inner' : Inner}
  {members members' : Members} {path : Path}

/-! ### Groups of keywords -/

/-- The names that count among the types, and whether null is listed with them or admitted beside them. -/
def typesAndNull (members : Members) (path : Path) : Except SchemaError (List String × Bool) := do
  let types ← types members path
  let isNullable ← nullable members path
  return (types.names, types.withNull || isNullable)

/-- Which names a schema object requires. -/
def requires (members : Members) (path : Path) : Except SchemaError (String → Bool) := do
  let names ← requiredNames members path
  return fun name => decide (name ∈ names)

/-- The node of a schema object whose types and null are known. -/
def nodeOf (inner : Inner) (members : Members) (path : Path) (names : List String) (withNull : Bool) :
    Except SchemaError Node := do
  let rules ← rules members path
  let allowed ← allowed members path
  let own ← ownParts inner members names rules allowed path
  let oneOf ← branches inner members "oneOf" "union" path
  let anyOf ← branches inner members "anyOf" "union" path
  let allOf ← branches inner members "allOf" "intersection" path
  let parts := own ++ (oneOf.map fun nodes => (Kind.union nodes).plain).toList ++
    (anyOf.map fun nodes => (Kind.union nodes).plain).toList ++
    (allOf.map fun nodes => (Kind.intersection nodes).plain).toList
  let node := combine parts
  return { node with nullable := node.nullable || (withNull || allowed.any (·.withNull)) }

/-- Null from the types and null from `nullable` are told apart nowhere. -/
theorem objectNode_eq (h : Entries.get? members "$ref" = none) :
    objectNode inner members path =
      typesAndNull members path >>= fun given => nodeOf inner members path given.1 given.2 := by
  unfold objectNode typesAndNull nodeOf
  rw [h]
  simp only [bind_assoc, pure_bind]

/-- The required names count only by which they are. -/
theorem objectKind_eq : objectKind inner members path = (do
    let isRequired ← requires members path
    let properties ← properties inner members path
    let (additional, closed) ← additional inner members path
    return .object properties ((Entries.names properties).filter isRequired) additional closed) := by
  unfold objectKind requires
  simp only [bind_assoc, pure_bind]

/-- Other types than arrays and objects are read from their name alone. -/
theorem typedKind_scalar {name : String} (harray : name ≠ "array") (hobject : name ≠ "object") :
    typedKind inner members name path = typedKind inner' members' name path := by
  unfold typedKind
  split <;> simp_all

/-- What is no truth value is read as a schema. -/
theorem additional_of_schema {schema : Value}
    (hschema : Entries.get? members "additionalProperties" = some schema) (hnot : ∀ b, schema ≠ .bool b) :
    additional inner members path =
      inner schema (path.join "additionalProperties") >>= fun node => pure (some node, false) := by
  unfold additional
  rw [hschema]
  split
  · simp_all
  · exact absurd (by assumption) (by simp [hnot])
  · exact absurd (by assumption) (by simp [hnot])
  · next other _ _ hother =>
      cases hother
      rfl

/-- A value that the reader of a keyword has no use for is reported. -/
theorem keyword?_misfit {α : Type} {view : Value → Option α} {misuse : Misuse} {keyword : String}
    {value : Value} (hvalue : Entries.get? members keyword = some value) (hview : view value = none) :
    keyword? view misuse members keyword path = path.fails (.invalidKeyword keyword misuse) := by
  unfold keyword?
  rw [hvalue]
  simp only [hview]

/-- A list of texts is read as its texts. -/
theorem mapM_str?_texts (names : List String) : (names.map Value.str).mapM Value.str? = some names :=
  mapM_map fun _ _ => rfl

/-! ### Values that are alike -/

/-- The readers for the schemas inside end the same on related values, which are the same truth values. -/
structure Supports (p : SchemaError → Prop) (inner inner' : Inner) (related : Value → Value → Prop) : Prop where
  reads : ∀ schema schema', related schema schema' → ∀ path, EndsAs p (inner schema path) (inner' schema' path)
  truth : ∀ schema schema', related schema schema' → ∀ b, schema = .bool b ↔ schema' = .bool b

/-- Lists of related schemas; what is no list stays as it is. -/
inductive ListsAlike (related : Value → Value → Prop) : Value → Value → Prop
  | list {schemas schemas' : List Value} (h : List.Forall₂ related schemas schemas') :
      ListsAlike related (.arr schemas) (.arr schemas')
  | other {value : Value} (h : value.arr? = none) : ListsAlike related value value

/-- Related schemas under the same names in the same order; what is no object stays as it is. -/
inductive PropertiesAlike (related : Value → Value → Prop) : Value → Value → Prop
  | object {schemas schemas' : List (String × Value)} (h : Entries.Corresponds related schemas schemas') :
      PropertiesAlike related (.obj schemas) (.obj schemas')
  | other {value : Value} (h : value.obj? = none) : PropertiesAlike related value value

/-- The keywords that hold schemas. -/
def schemaKeywords : List String :=
  ["properties", "additionalProperties", "items"] ++ composites

/-- What a keyword holds is alike on both sides: the properties, a list of schemas, or one schema. -/
def HoldsAlike (related : Value → Value → Prop) (keyword : String) : Value → Value → Prop :=
  if keyword = "properties" then PropertiesAlike related
  else if keyword ∈ composites then ListsAlike related
  else related

/-- The groups of two schema objects are read as the same, and the schemas in them are related. -/
structure Alike (related : Value → Value → Prop) (members members' : Members) : Prop where
  reference : Entries.get? members "$ref" = Entries.get? members' "$ref"
  types : ∀ path, typesAndNull members path = typesAndNull members' path
  rules : ∀ path, Reader.rules members path = Reader.rules members' path
  allowed : ∀ path, Reader.allowed members path = Reader.allowed members' path
  requires : ∀ path, Reader.requires members path = Reader.requires members' path
  holds : ∀ keyword ∈ schemaKeywords, Option.Rel (HoldsAlike related keyword)
    (Entries.get? members keyword) (Entries.get? members' keyword)

theorem holdsAlike_composite {keyword : String} (h : keyword ∈ composites) :
    HoldsAlike related keyword = ListsAlike related := by
  rcases composite_cases h with rfl | rfl | rfl <;> rfl

/-- Related optional values are both absent or both there. -/
theorem rel_cases {r : Value → Value → Prop} {value? value?' : Option Value} (h : Option.Rel r value? value?') :
    (value? = none ∧ value?' = none) ∨
      ∃ value value', value? = some value ∧ value?' = some value' ∧ r value value' := by
  cases h with
  | none => exact .inl ⟨rfl, rfl⟩
  | some hrelated => exact .inr ⟨_, _, rfl, rfl, hrelated⟩

theorem has_eq {r : Value → Value → Prop} {keyword : String}
    (h : Option.Rel r (Entries.get? members keyword) (Entries.get? members' keyword)) :
    Entries.has members keyword = Entries.has members' keyword := by
  unfold Entries.has
  rcases rel_cases h with ⟨hnone, hnone'⟩ | ⟨_, _, hvalue, hvalue', -⟩
  · rw [hnone, hnone']
  · rw [hvalue, hvalue', Option.isSome_some, Option.isSome_some]

/-! ### Parts that are read alike -/

section Parts

variable (hsupports : Supports p inner inner' related) (h : Alike related members members')

include hsupports h

theorem properties_alike : EndsAs p (properties inner members path) (properties inner' members' path) := by
  unfold properties
  rcases rel_cases (h.holds "properties" (by decide)) with
    ⟨hnone, hnone'⟩ | ⟨value, value', hvalue, hvalue', halike⟩
  · rw [keyword?_eq_none.mpr hnone, keyword?_eq_none.mpr hnone']
    exact .refl _
  · cases halike with
    | other hmisfit =>
        rw [keyword?_misfit hvalue hmisfit, keyword?_misfit hvalue' hmisfit]
        exact .refl _
    | object hschemas =>
        rw [keyword?_eq_some.mpr ⟨_, hvalue, Value.obj?_eq_some.mpr rfl⟩,
          keyword?_eq_some.mpr ⟨_, hvalue', Value.obj?_eq_some.mpr rfl⟩]
        refine EndsAs.andThen (EndsAs.mapM (hschemas.imp ?_))
        intro property property' hproperty
        obtain ⟨hname, hrelated⟩ := hproperty
        dsimp only
        rw [hname]
        exact (hsupports.reads _ _ hrelated _).andThen

theorem additional_alike : EndsAs p (additional inner members path) (additional inner' members' path) := by
  rcases rel_cases (h.holds "additionalProperties" (by decide)) with
    ⟨hnone, hnone'⟩ | ⟨schema, schema', hschema, hschema', hrelated⟩
  · unfold additional
    rw [hnone, hnone']
    exact .refl _
  · have htruth := hsupports.truth _ _ hrelated
    by_cases hbool : ∃ b, schema = .bool b
    · obtain ⟨b, hb⟩ := hbool
      unfold additional
      rw [hschema, hschema', hb, (htruth b).mp hb]
      cases b <;> exact .refl _
    · rw [not_exists] at hbool
      rw [additional_of_schema hschema hbool,
        additional_of_schema hschema' fun b hb => hbool b ((htruth b).mpr hb)]
      exact (hsupports.reads _ _ hrelated _).andThen

theorem objectKind_alike : EndsAs p (objectKind inner members path) (objectKind inner' members' path) := by
  rw [objectKind_eq, objectKind_eq, h.requires path]
  refine (EndsAs.refl _).bind fun _ => ?_
  refine (properties_alike hsupports h).bind fun _ => ?_
  exact (additional_alike hsupports h).andThen

theorem typedKind_alike (name : String) :
    EndsAs p (typedKind inner members name path) (typedKind inner' members' name path) := by
  by_cases harray : name = "array"
  · subst harray
    unfold typedKind
    rcases rel_cases (h.holds "items" (by decide)) with
      ⟨hnone, hnone'⟩ | ⟨schema, schema', hschema, hschema', hrelated⟩
    · simp only [hnone, hnone']
      exact .refl _
    · simp only [hschema, hschema']
      exact (hsupports.reads _ _ hrelated _).andThen
  · by_cases hobject : name = "object"
    · subst hobject
      exact objectKind_alike hsupports h
    · rw [typedKind_scalar harray hobject]
      exact .refl _

theorem typedNode_alike (names : List String) (rules : List Rule) :
    EndsAs p (typedNode inner members names rules path) (typedNode inner' members' names rules path) := by
  unfold typedNode
  split
  · exact (typedKind_alike hsupports h _).andThen
  · refine EndsAs.andThen (EndsAs.mapM ?_)
    exact List.forall₂_same.mpr fun item _ => typedKind_alike hsupports h item.1

theorem impliedNode?_alike (rules : List Rule) :
    EndsAs p (impliedNode? inner members rules path) (impliedNode? inner' members' rules path) := by
  unfold impliedNode?
  rw [has_eq (h.holds "properties" (by decide)), has_eq (h.holds "additionalProperties" (by decide))]
  split
  · exact (objectKind_alike hsupports h).andThen
  · rcases rel_cases (h.holds "items" (by decide)) with
      ⟨hnone, hnone'⟩ | ⟨schema, schema', hschema, hschema', hrelated⟩
    · rw [hnone, hnone']
      exact .refl _
    · rw [hschema, hschema']
      exact (hsupports.reads _ _ hrelated _).andThen

theorem ownParts_alike (names : List String) (rules : List Rule) (allowed : Option Allowed) :
    EndsAs p (ownParts inner members names rules allowed path)
      (ownParts inner' members' names rules allowed path) := by
  unfold ownParts
  split
  · refine (EndsAs.refl _).bind fun _ => ?_
    split
    · exact .refl _
    · exact (typedNode_alike hsupports h names rules).andThen
  · split
    · exact (impliedNode?_alike hsupports h rules).andThen
    · exact (typedNode_alike hsupports h names rules).andThen

theorem branches_alike {keyword : String} (hkeyword : keyword ∈ composites) (kind : String) :
    EndsAs p (branches inner members keyword kind path) (branches inner' members' keyword kind path) := by
  unfold branches
  rcases rel_cases (h.holds keyword (List.mem_append_right _ hkeyword)) with
    ⟨hnone, hnone'⟩ | ⟨value, value', hvalue, hvalue', halike⟩
  · rw [keyword?_eq_none.mpr hnone, keyword?_eq_none.mpr hnone']
    exact .refl _
  · rw [holdsAlike_composite hkeyword] at halike
    cases halike with
    | other hmisfit =>
        rw [keyword?_misfit hvalue hmisfit, keyword?_misfit hvalue' hmisfit]
        exact .refl _
    | list hschemas =>
        rw [keyword?_eq_some.mpr ⟨_, hvalue, Value.arr?_eq_some.mpr rfl⟩,
          keyword?_eq_some.mpr ⟨_, hvalue', Value.arr?_eq_some.mpr rfl⟩]
        cases hschemas with
        | nil => exact .refl _
        | cons hfirst hrest =>
            refine EndsAs.andThen (EndsAs.mapM ((forall₂_zipIdx (.cons hfirst hrest) 0).imp ?_))
            intro item item' hitem
            obtain ⟨hrelated, hindex⟩ := hitem
            dsimp only
            rw [hindex]
            exact hsupports.reads _ _ hrelated _

/-- **Schema objects that are alike are read alike.** -/
theorem objectNode_alike (path : Path) :
    EndsAs p (objectNode inner members path) (objectNode inner' members' path) := by
  cases href : Entries.get? members "$ref" with
  | some reference =>
      have href' := h.reference.symm.trans href
      unfold objectNode
      rw [href, href']
      exact .refl _
  | none =>
      rw [objectNode_eq href, objectNode_eq (h.reference.symm.trans href), h.types path]
      refine (EndsAs.refl _).bind fun given => ?_
      unfold nodeOf
      rw [h.rules path, h.allowed path]
      refine (EndsAs.refl _).bind fun rules => ?_
      refine (EndsAs.refl _).bind fun allowed => ?_
      refine (ownParts_alike hsupports h _ _ _).bind fun _ => ?_
      refine (branches_alike hsupports h (by decide) _).bind fun _ => ?_
      refine (branches_alike hsupports h (by decide) _).bind fun _ => ?_
      exact (branches_alike hsupports h (by decide) _).andThen

end Parts

/-! ### Groups that look up the same

Which keywords each group reads.
-/

theorem boundRules_congr {inclusive exclusive : String} {within beyond : Decimal.Double → Rule}
    (h : Entries.AgreeOn [inclusive, exclusive] members members') :
    boundRules inclusive exclusive within beyond members path =
      boundRules inclusive exclusive within beyond members' path := by
  unfold boundRules keyword?
  rw [h inclusive (by simp), h exclusive (by simp)]

/-- The bounds apart, the constraints are read from one keyword each. -/
theorem rules_congr_of_bounds
    (h : Entries.AgreeOn ["format", "minLength", "maxLength", "pattern", "multipleOf", "minItems", "maxItems"]
      members members')
    (hlower : boundRules "minimum" "exclusiveMinimum" .min .greaterThan members path =
      boundRules "minimum" "exclusiveMinimum" .min .greaterThan members' path)
    (hupper : boundRules "maximum" "exclusiveMaximum" .max .lessThan members path =
      boundRules "maximum" "exclusiveMaximum" .max .lessThan members' path) :
    rules members path = rules members' path := by
  unfold rules formatRules countRules patternRules stepRules keyword?
  rw [hlower, hupper, h "format" (by decide), h "minLength" (by decide), h "maxLength" (by decide),
    h "pattern" (by decide), h "multipleOf" (by decide), h "minItems" (by decide), h "maxItems" (by decide)]

/-- The constraints are read from the constraint keywords. -/
theorem rules_congr (h : Entries.AgreeOn ["format", "minLength", "maxLength", "pattern", "minimum",
      "exclusiveMinimum", "maximum", "exclusiveMaximum", "multipleOf", "minItems", "maxItems"] members members') :
    rules members path = rules members' path :=
  rules_congr_of_bounds (h.mono (by decide)) (boundRules_congr (h.mono (by decide)))
    (boundRules_congr (h.mono (by decide)))

theorem nullable_congr (h : Entries.AgreeOn ["nullable"] members members') :
    nullable members path = nullable members' path := by
  unfold nullable keyword?
  rw [h "nullable" (by decide)]

theorem typesAndNull_congr (h : Entries.AgreeOn ["type", "nullable"] members members') :
    typesAndNull members path = typesAndNull members' path := by
  unfold typesAndNull types keyword?
  rw [h "type" (by decide), nullable_congr (h.mono (by decide))]

theorem allowed_congr (h : Entries.AgreeOn ["enum", "const"] members members') :
    allowed members path = allowed members' path := by
  unfold allowed enumLiterals keyword?
  rw [h "enum" (by decide), h "const" (by decide)]

theorem requires_congr (h : Entries.AgreeOn ["required"] members members') :
    requires members path = requires members' path := by
  unfold requires requiredNames keyword?
  rw [h "required" (by decide)]

theorem branches_congr {keyword kind : String} (h : Entries.AgreeOn [keyword] members members') :
    branches inner members keyword kind path = branches inner members' keyword kind path := by
  unfold branches keyword?
  rw [h keyword (by simp)]

theorem impliedNode?_congr {rules : List Rule}
    (h : Entries.AgreeOn ["required", "properties", "additionalProperties", "items"] members members') :
    impliedNode? inner members rules path = impliedNode? inner members' rules path := by
  unfold impliedNode? objectKind requiredNames properties additional keyword? Entries.has
  rw [h "required" (by decide), h "properties" (by decide), h "additionalProperties" (by decide),
    h "items" (by decide)]

/-- Schema objects that differ only in the schemas they hold are alike when these are. -/
theorem alike_of_schemas (others : Entries.AgreeOff ("$ref" :: schemaKeywords) members members')
    (reference : Entries.get? members "$ref" = Entries.get? members' "$ref")
    (holds : ∀ keyword ∈ schemaKeywords, Option.Rel (HoldsAlike related keyword)
      (Entries.get? members keyword) (Entries.get? members' keyword)) : Alike related members members' := by
  refine ⟨reference, ?_, ?_, ?_, ?_, holds⟩
  · exact fun _ => typesAndNull_congr (others.agreeOn (by decide))
  · exact fun _ => rules_congr (others.agreeOn (by decide))
  · exact fun _ => allowed_congr (others.agreeOn (by decide))
  · exact fun _ => requires_congr (others.agreeOn (by decide))

/-! ### A schema object beside itself -/

theorem rel_self {r : Value → Value → Prop} {value? : Option Value}
    (h : ∀ value, value? = some value → r value value) : Option.Rel r value? value? := by
  cases hvalue : value? with
  | none => exact .none
  | some value => exact .some (h value hvalue)

theorem listsAlike_self {value : Value}
    (h : ∀ schemas, value = .arr schemas → ∀ schema ∈ schemas, related schema schema) :
    ListsAlike related value value := by
  cases hvalue : value.arr? with
  | none => exact .other hvalue
  | some schemas =>
      have hschemas := Value.arr?_eq_some.mp hvalue
      rw [hschemas]
      exact .list (List.forall₂_same.mpr (h schemas hschemas))

theorem propertiesAlike_self {value : Value}
    (h : ∀ schemas, value = .obj schemas → ∀ property ∈ schemas, related property.2 property.2) :
    PropertiesAlike related value value := by
  cases hvalue : value.obj? with
  | none => exact .other hvalue
  | some schemas =>
      have hschemas := Value.obj?_eq_some.mp hvalue
      rw [hschemas]
      exact .object (List.forall₂_same.mpr fun property hmem => ⟨rfl, h schemas hschemas property hmem⟩)

/-- A schema object is like itself when the schemas inside it are related to themselves. -/
theorem alike_self (h : ∀ steps schema, Child members steps schema → related schema schema) :
    Alike related members members := by
  refine ⟨rfl, fun _ => rfl, fun _ => rfl, fun _ => rfl, fun _ => rfl, fun keyword hkeyword => ?_⟩
  refine rel_self fun value hvalue => ?_
  unfold HoldsAlike
  split
  · next hproperties =>
      subst hproperties
      exact propertiesAlike_self fun schemas hschemas property hmem =>
        h _ _ (.property (hvalue.trans (congrArg some hschemas)) hmem)
  · split
    · next hcomposite =>
        refine listsAlike_self fun schemas hschemas schema hschema => ?_
        obtain ⟨index, hindex⟩ := List.mem_iff_getElem?.mp hschema
        exact h _ _ (.branch hcomposite (hvalue.trans (congrArg some hschemas)) hindex)
    · next hproperties hcomposite =>
        simp only [schemaKeywords, List.cons_append, List.nil_append, List.mem_cons, hproperties,
          hcomposite, or_false, false_or] at hkeyword
        rcases hkeyword with rfl | rfl
        · exact h _ _ (.additional hvalue)
        · exact h _ _ (.items hvalue)

/-- The same schemas under the same keywords are alike, and the other groups are for themselves. -/
theorem alike_of_agree (reference : Entries.get? members "$ref" = Entries.get? members' "$ref")
    (schemas : Entries.AgreeOn schemaKeywords members members')
    (types : ∀ path, typesAndNull members path = typesAndNull members' path)
    (rules : ∀ path, Reader.rules members path = Reader.rules members' path)
    (allowed : ∀ path, Reader.allowed members path = Reader.allowed members' path)
    (requires : ∀ path, Reader.requires members path = Reader.requires members' path) :
    Alike Eq members members' := by
  refine ⟨reference, types, rules, allowed, requires, fun keyword hkeyword => ?_⟩
  have hself : Alike Eq members members := alike_self fun _ _ _ => rfl
  rw [← schemas keyword hkeyword]
  exact hself.holds keyword hkeyword

/-! ### The depth does not matter -/

/-- Readers that agree on the schemas inside read a schema object the same. -/
theorem objectNode_congr (h : ∀ schema : Value, schema.depth ≤ Value.depthMembers members →
    ∀ path, inner schema path = inner' schema path) (path : Path) :
    objectNode inner members path = objectNode inner' members path := by
  -- No error is excused, so ending as the other reader is being equal.
  have hsupports : Supports (fun _ => False) inner inner'
      (fun schema schema' => schema = schema' ∧ schema.depth ≤ Value.depthMembers members) := by
    refine ⟨?_, ?_⟩
    · rintro schema _ ⟨rfl, hdepth⟩ path
      exact .of_eq (h schema hdepth path)
    · rintro schema _ ⟨rfl, -⟩ b
      exact Iff.rfl
  exact (objectNode_alike hsupports (alike_self fun _ _ hchild => ⟨rfl, hchild.depth_le⟩) path).eq fun _ => id

/-- Any depth from that of the schema on reads the same. -/
theorem readWithin_eq_of_le {depth depth' : Nat} {schema : Value} (h : schema.depth ≤ depth)
    (h' : schema.depth ≤ depth') (path : Path) : readWithin depth schema path = readWithin depth' schema path := by
  induction depth generalizing depth' schema path with
  | zero =>
      cases schema with
      | obj members => simp [Value.depth] at h
      | _ => simp [readWithin]
  | succ depth ih =>
      cases schema with
      | obj members =>
          cases depth' with
          | zero => simp [Value.depth] at h'
          | succ depth' =>
              simp only [Value.depth] at h h'
              exact objectNode_congr (fun inside hinside path => ih (by omega) (by omega) path) path
      | _ => simp [readWithin]

/-- **The schemas inside a schema object are read as if each stood alone.** -/
theorem readAt_obj (members : Members) (path : Path) :
    readAt (.obj members) path = objectNode readAt members path :=
  objectNode_congr (fun _ hinside path => readWithin_eq_of_le hinside (Nat.le_refl _) path) path

end ZodRoutes.Schema.Reader
