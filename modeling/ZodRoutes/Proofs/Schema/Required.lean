/-
Names that a schema requires.

An object that lacks a name is refused when the schema object lists the name as required and declares it as a
property, whatever else the schema object says, and when a branch of `allOf` does so, at any depth of such
branches.

Only declared names are kept.  A name that is listed but not declared shows nowhere in what is read: with or
without it in the list, the schema is read as the same node or refused with the same error.
-/
import ZodRoutes.Proofs.Schema.Alike
import ZodRoutes.Proofs.Schema.Faithful

namespace ZodRoutes.Schema

open Json (Value)
open Reader (Members Inner objectKind objectNode)
open Meaning (Named MeetsGroups MeetsObject)

/-- A schema object of objects: its type is `object` or not given, and it lists no values. -/
structure DescribesObjects (members : Members) : Prop where
  type : Entries.get? members "type" = none ∨ Entries.get? members "type" = some (.str "object")
  noEnum : Entries.get? members "enum" = none
  noConst : Entries.get? members "const" = none

/-- A name is demanded of objects: it is listed as required and declared as a property, or a branch of
`allOf` demands it. -/
inductive Demands (name : String) : Value → Prop
  | own {members : Members} (describes : DescribesObjects members) (listed : name ∈ Meaning.required members)
      (declared : name ∈ Entries.names (Meaning.properties members)) : Demands name (.obj members)
  | branch {members : Members} {schemas : List Value} {schema : Value}
      (h : Entries.get? members "allOf" = some (.arr schemas)) (member : schema ∈ schemas)
      (demands : Demands name schema) : Demands name (.obj members)

variable {members : Members} {schema : Value} {path : Path} {name : String}
  {holds : Rule → Value → Prop} {meets : Value → Value → Prop}

/-! ### What is demanded -/

theorem DescribesObjects.listedValues? (h : DescribesObjects members) : Meaning.listedValues? members = none := by
  unfold Meaning.listedValues?
  rw [h.noConst, h.noEnum]

/-- The only type that can count is `object`. -/
theorem DescribesObjects.eq_object {other : String} (h : DescribesObjects members)
    (hnamed : Named members other) : other = "object" := by
  have hlisted := hnamed.1
  unfold Meaning.listedTypes at hlisted
  rcases h.type with habsent | hobject
  · simp [habsent] at hlisted
  · simpa [hobject] using hlisted

/-- With its type named or implied, a schema object that declares properties asks for an object. -/
theorem DescribesObjects.meetsObject {value : Value} (h : DescribesObjects members)
    (hdeclares : Entries.has members "properties") (hgroups : MeetsGroups holds meets members value) :
    MeetsObject meets members value := by
  by_cases hnamed : ∃ other, Named members other
  · obtain ⟨other, hother, htype, -⟩ := hgroups.types hnamed
    rw [h.eq_object hother] at htype
    simpa [Meaning.IsOfType] using htype
  · have himplied := hgroups.implied hnamed h.listedValues?
    rwa [if_pos (.inl hdeclares)] at himplied

theorem has_properties_of_declared (h : name ∈ Entries.names (Meaning.properties members)) :
    Entries.has members "properties" := by
  unfold Meaning.properties at h
  unfold Entries.has
  split at h
  · next hproperties => rw [hproperties, Option.isSome_some]
  · simp at h

/-- A demanded name is there in every object that meets the schema. -/
theorem Demands.mem_names {fields : Members} (h : Demands name schema)
    (hmeets : Meets holds schema (.obj fields)) : name ∈ Entries.names fields := by
  induction h with
  | own describes listed declared =>
      rcases meets_obj.mp hmeets with ⟨hnull, -⟩ | hgroups
      · cases hnull
      · obtain ⟨others, heq, hfit⟩ := describes.meetsObject (has_properties_of_declared declared) hgroups
        cases heq
        exact hfit.present name listed declared
  | branch h member _ ih =>
      rcases meets_obj.mp hmeets with ⟨hnull, -⟩ | hgroups
      · cases hnull
      · exact ih (hgroups.allOf _ h _ member)

/-! ### What is listed in vain -/

/-- A list of names without one of them. -/
def listWithout (name : String) : Value → Value
  | .arr names => .arr (names.filter fun listed => listed.str? != some name)
  | value => value

/-- A schema object that does not list a name as required. -/
def unlisted (name : String) (members : Members) : Members :=
  members.map fun member => (member.1, if member.1 = "required" then listWithout name member.2 else member.2)

theorem get?_unlisted (keyword : String) :
    Entries.get? (unlisted name members) keyword = (Entries.get? members keyword).map fun value =>
      if keyword = "required" then listWithout name value else value :=
  Entries.get?_map_named fun keyword value => if keyword = "required" then listWithout name value else value

theorem agreeOff_unlisted : Entries.AgreeOff ["required"] (unlisted name members) members := by
  intro keyword hkeyword
  rw [List.mem_singleton] at hkeyword
  simp [get?_unlisted, hkeyword]

theorem mapM_str?_without (names : List Value) :
    (names.filter fun listed => listed.str? != some name).mapM Value.str? =
      (names.mapM Value.str?).map (List.filter (· ≠ name)) := by
  induction names with
  | nil => rfl
  | cons first rest ih =>
      rw [List.mapM_cons, List.filter_cons]
      cases hfirst : first.str? with
      | none => simp [List.mapM_cons, hfirst]
      | some text =>
          by_cases heq : text = name
          · cases hrest : rest.mapM Value.str? <;> simp [heq, ih, hrest]
          · cases hrest : rest.mapM Value.str? <;> simp [List.mapM_cons, hfirst, heq, ih, hrest]

/-- The name is no longer required. -/
theorem notMem_required_unlisted : name ∉ Meaning.required (unlisted name members) := by
  unfold Meaning.required
  rw [get?_unlisted]
  cases Entries.get? members "required" with
  | none => simp
  | some value => cases value <;> simp [listWithout, List.mem_filter]

/-- Leaving a name out of the list leaves it out of the required names, and changes no error. -/
theorem requiredNames_unlisted : Reader.requiredNames (unlisted name members) path =
    (Reader.requiredNames members path).map (List.filter (· ≠ name)) := by
  unfold Reader.requiredNames Reader.keyword?
  rw [get?_unlisted]
  cases hrequired : Entries.get? members "required" with
  | none => rfl
  | some value =>
      cases value with
      | arr names =>
          simp only [Option.map_some, if_true, listWithout, Value.arr?, bind, Except.bind, mapM_str?_without]
          cases names.mapM Value.str? <;> rfl
      | _ => rfl

section Vain

variable {inner : Inner} (h : name ∉ Entries.names (Meaning.properties members))

include h

/-- Only declared names are kept of those that are required. -/
theorem objectKind_unlisted : objectKind inner (unlisted name members) path = objectKind inner members path := by
  have hproperties : Reader.properties inner (unlisted name members) path = Reader.properties inner members path := by
    unfold Reader.properties Reader.keyword?
    rw [agreeOff_unlisted "properties" (by decide)]
  have hadditional : Reader.additional inner (unlisted name members) path = Reader.additional inner members path := by
    unfold Reader.additional
    rw [agreeOff_unlisted "additionalProperties" (by decide)]
  unfold objectKind
  rw [requiredNames_unlisted, hproperties, hadditional]
  cases Reader.requiredNames members path with
  | error e => rfl
  | ok required =>
      cases hread : Reader.properties inner members path with
      | error e => rfl
      | ok nodes =>
          have hnames := (Reader.properties_correspond hread).1.names_eq
          have hfilter : (Entries.names nodes).filter (· ∈ required.filter (· ≠ name)) =
              (Entries.names nodes).filter (· ∈ required) := by
            refine List.filter_congr fun other hother => ?_
            have hne : other ≠ name := by
              rintro rfl
              exact h (hnames ▸ hother)
            simp [hne]
          simp only [Except.map, bind, Except.bind, hfilter]

theorem typedKind_unlisted (type : String) :
    Reader.typedKind inner (unlisted name members) type path = Reader.typedKind inner members type path := by
  unfold Reader.typedKind
  rw [agreeOff_unlisted "items" (by decide), objectKind_unlisted h]

theorem ownParts_unlisted (types : List String) (rules : List Rule) (allowed : Option Reader.Allowed) :
    Reader.ownParts inner (unlisted name members) types rules allowed path =
      Reader.ownParts inner members types rules allowed path := by
  have htyped : Reader.typedNode inner (unlisted name members) types rules path =
      Reader.typedNode inner members types rules path := by
    unfold Reader.typedNode
    simp only [typedKind_unlisted h]
  have himplied : Reader.impliedNode? inner (unlisted name members) rules path =
      Reader.impliedNode? inner members rules path := by
    unfold Reader.impliedNode? Entries.has
    rw [agreeOff_unlisted "properties" (by decide), agreeOff_unlisted "additionalProperties" (by decide),
      agreeOff_unlisted "items" (by decide), objectKind_unlisted h]
  unfold Reader.ownParts
  rw [htyped, himplied]

/-- **A name that is listed but not declared has no effect.** -/
theorem readAt_unlisted : readAt (.obj (unlisted name members)) path = readAt (.obj members) path := by
  have hoff : Entries.AgreeOff ["required"] (unlisted name members) members := agreeOff_unlisted
  have hbranches : ∀ keyword ≠ "required", ∀ kind,
      Reader.branches readAt (unlisted name members) keyword kind path =
        Reader.branches readAt members keyword kind path := by
    intro keyword hkeyword kind
    refine Reader.branches_congr fun other hother => hoff other ?_
    rw [List.mem_singleton.mp hother, List.mem_singleton]
    exact hkeyword
  rw [Reader.readAt_obj, Reader.readAt_obj]
  cases href : Entries.get? members "$ref" with
  | some reference =>
      unfold objectNode
      rw [hoff "$ref" (by decide), href]
  | none =>
      rw [Reader.objectNode_eq href, Reader.objectNode_eq ((hoff "$ref" (by decide)).trans href),
        Reader.typesAndNull_congr (hoff.agreeOn (by decide))]
      unfold Reader.nodeOf
      rw [Reader.rules_congr (hoff.agreeOn (by decide)), Reader.allowed_congr (hoff.agreeOn (by decide)),
        hbranches "oneOf" (by decide), hbranches "anyOf" (by decide), hbranches "allOf" (by decide)]
      simp only [ownParts_unlisted h]

end Vain

/-- **Which required names count.**  A schema that is read refuses every object that lacks a name it demands.
A name that is listed but not declared is not demanded, and the schema is read as the same node without it. -/
theorem required_of_readAt {node : Node} (h : readAt schema path = .ok node) (holds : Rule → Value → Prop) :
    (∀ name, Demands name schema → ∀ fields, node.Accepts holds (.obj fields) → name ∈ Entries.names fields) ∧
      ∀ members name, schema = .obj members → name ∉ Entries.names (Meaning.properties members) →
        name ∉ Meaning.required (unlisted name members) ∧
          readAt (.obj (unlisted name members)) path = .ok node := by
  constructor
  · intro name hdemands fields haccepts
    have hmeets : Meets holds schema (.obj fields) :=
      (Reader.readWithin_faithful holds _ schema node ⟨path, h⟩ _).mp haccepts
    exact hdemands.mem_names hmeets
  · rintro members name rfl hundeclared
    exact ⟨notMem_required_unlisted, (readAt_unlisted hundeclared).trans h⟩

/-- An object with a name, by the branch, and with an identifier, which is not declared. -/
def halfDeclaredMembers : Members :=
  [("required", .arr [.str "id"]), ("allOf", .arr [.obj [("type", .str "object"), ("required", .arr [.str "name"]),
    ("properties", .obj [("name", .obj [("type", .str "string")])])]])]

/-- Its tree, in which the identifier is lost. -/
def halfDeclaredNode : Node :=
  (Kind.intersection [(Kind.object [("name", Kind.string.plain)] ["name"] none false).plain]).plain

theorem required_of_readAt_halfDeclared :
    readAt (.obj halfDeclaredMembers) .root = .ok halfDeclaredNode ∧
      (∀ fields, halfDeclaredNode.Accepts lengthHolds (.obj fields) → "name" ∈ Entries.names fields) ∧
      "id" ∈ Meaning.required halfDeclaredMembers ∧
      halfDeclaredNode.Accepts lengthHolds (.obj [("name", .str "x")]) ∧
      readAt (.obj (unlisted "id" halfDeclaredMembers)) .root = .ok halfDeclaredNode := by
  have hread : readAt (.obj halfDeclaredMembers) .root = .ok halfDeclaredNode := rfl
  obtain ⟨hdemanded, hvain⟩ := required_of_readAt hread lengthHolds
  refine ⟨hread, hdemanded "name" ?_, ?_, ?_, (hvain _ "id" rfl (by decide)).2⟩
  · exact .branch rfl List.mem_cons_self (.own ⟨.inr rfl, rfl, rfl⟩ (by decide) (by decide))
  · decide
  · simp only [halfDeclaredNode, Kind.accepts_plain, Kind.accepts_intersection, List.forall_mem_singleton]
    refine .object (by simp) ?_ (by simp) (by simp)
    intro name node value hnode hvalue
    have hstring : name = "name" ∧ Kind.string.plain = node := by
      simpa [Entries.ofList, Entries.insert, Entries.get?_cons] using hnode
    have htext : name = "name" ∧ Value.str "x" = value := by simpa [Entries.get?_cons] using hvalue
    rw [← hstring.2, ← htext.2, Kind.accepts_plain]
    exact .string

end ZodRoutes.Schema
