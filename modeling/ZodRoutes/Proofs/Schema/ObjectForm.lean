/-
Object kinds and the object keywords.

An object kind is made in one way only, from the object keywords of one schema object: its properties are the entries
of `properties`, each with the node that its schema has by itself, of the names in `required` those count that are
properties, and other members are refused only where nothing is said of them.  Whatever is combined with an object
makes an intersection, so a schema that is read as an object is a schema object without composite keywords.
-/
import ZodRoutes.Proofs.Schema.Built
import ZodRoutes.Proofs.Schema.Faithful
import ZodRoutes.Proofs.Schema.Placeless

namespace ZodRoutes.Schema

open Json (Value)
open Reader (Allowed ImpliedNode Members ObjectKind OwnParts Reading TypedKind TypedNode)

/-- The entries of the `properties` keyword. -/
def declaredProperties (members : Members) : List (String × Value) :=
  match Entries.get? members "properties" with
  | some (.obj schemas) => schemas
  | _ => []

/-- A name that is declared twice counts as it is declared last. -/
theorem Meaning.properties_eq (members : Members) :
    Meaning.properties members = Entries.ofList (declaredProperties members) := by
  unfold Meaning.properties declaredProperties
  cases Entries.get? members "properties" with
  | none => rfl
  | some value => cases value <;> rfl

/-- The parts of an object kind are those that the object keywords of a schema object give. -/
structure ObjectForm (members : Members) (properties : Entries Node) (required : List String)
    (additional : Option Node) (closed : Bool) : Prop where
  /-- Each property has the node that its schema has by itself. -/
  read : Entries.Corresponds (fun schema node => Schema.read schema = .ok node) (Meaning.properties members) properties
  required : required = (Entries.names properties).filter (· ∈ Meaning.required members)
  exclusive : ¬ (closed ∧ additional.isSome)

namespace ObjectForm

variable {members : Members} {properties : Entries Node} {required : List String} {additional : Option Node}
  {closed : Bool}

/-- The names of the properties are in document order. -/
theorem ordered (h : ObjectForm members properties required additional closed) :
    Entries.FirstOccurrences (Entries.names (declaredProperties members)) (Entries.names properties) := by
  rw [h.read.names_eq, Meaning.properties_eq, Entries.names_ofList]
  exact Entries.firstOccurrences_distinct _

theorem distinct (h : ObjectForm members properties required additional closed) :
    (Entries.names properties).Nodup := by
  rw [h.read.names_eq, Meaning.properties_eq]
  exact Entries.nodup_names_ofList _

end ObjectForm

/-- The object keywords of a schema object give an object kind of that form. -/
theorem objectForm_of_objectKind {members : Members} {path : Path} {kind : Kind}
    (h : ObjectKind readAt members path kind) : ∃ properties required additional closed,
      kind = .object properties required additional closed ∧
      ObjectForm members properties required additional closed := by
  obtain ⟨hrequired, hproperties, hadditional⟩ := h
  refine ⟨_, _, _, _, rfl, ?_, ?_, ?_⟩
  · refine (Reader.properties_correspond hproperties).1.imp ?_
    rintro schema node ⟨hname, path, hread⟩
    exact ⟨hname, (readAt_placeless _).eq_ok hread .root⟩
  · rw [Reader.requiredNames_eq_ok hrequired]
  · rintro ⟨hclosed, hsome⟩
    cases hadditional with
    | refused => cases hsome
    | _ => cases hclosed

/-- The object kinds of a type name have the form that the object keywords give. -/
theorem objectForm_of_typedKind {members : Members} {name : String} {properties : Entries Node}
    {required : List String} {additional : Option Node} {closed : Bool}
    (h : TypedKind readAt members name (.object properties required additional closed)) :
    ObjectForm members properties required additional closed := by
  cases h with
  | object hobject =>
      obtain ⟨_, _, _, _, heq, hform⟩ := objectForm_of_objectKind hobject
      cases heq
      exact hform

/-! ### Schemas that are read as objects -/

variable {members : Members} {path : Path} {properties : Entries Node} {required : List String}
  {additional : Option Node} {closed : Bool}

theorem objectForm_of_typedNode {names : List String} {rules : List Rule} {node : Node}
    (h : TypedNode readAt members rules names node)
    (hkind : node.kind = .object properties required additional closed) :
    ObjectForm members properties required additional closed := by
  cases h with
  | single read _ =>
      dsimp only at hkind
      subst hkind
      exact objectForm_of_typedKind read
  | several _ _ => cases hkind

/-- The part of a schema object that is an object has the form that the object keywords give. -/
theorem objectForm_of_ownParts {names : List String} {rules : List Rule} {allowed : Option Allowed} {own : List Node}
    (h : OwnParts readAt members path names rules allowed own) {part : Node} (hpart : part ∈ own)
    (hkind : part.kind = .object properties required additional closed) :
    ObjectForm members properties required additional closed := by
  have hlisted : ∀ allowed : Allowed, allowed.node.kind ≠ .object properties required additional closed := by
    intro allowed habsurd
    unfold Allowed.node at habsurd
    split at habsurd
    · cases habsurd
    · cases habsurd
  cases h with
  | listed _ _ =>
      rw [List.mem_singleton.mp hpart] at hkind
      exact absurd hkind (hlisted _)
  | narrowed _ _ read =>
      rcases List.mem_pair.mp hpart with rfl | rfl
      · exact absurd hkind (hlisted _)
      · exact objectForm_of_typedNode read hkind
  | typed _ read =>
      rw [List.mem_singleton.mp hpart] at hkind
      exact objectForm_of_typedNode read hkind
  | implied _ read =>
      cases read with
      | object _ hobject =>
          rw [List.mem_singleton.mp hpart] at hkind
          dsimp only at hkind
          subst hkind
          exact objectForm_of_typedKind (.object hobject)
      | array _ _ _ =>
          rw [List.mem_singleton.mp hpart] at hkind
          cases hkind
      | nothing _ _ => cases hpart

/-- An object is the only part of its schema object, and one of its own parts. -/
theorem own_of_object {reading : Reading}
    (hkind : reading.node.kind = .object properties required additional closed) :
    (∃ part ∈ reading.own, part.kind = .object properties required additional closed) ∧
      reading.oneOf = none ∧ reading.anyOf = none ∧ reading.allOf = none := by
  have hcombined : (Reader.combine reading.parts).kind = .object properties required additional closed := hkind
  unfold Reader.combine at hcombined
  split at hcombined
  · cases hcombined
  · next part hparts =>
      have hcount := congrArg List.length hparts
      have hmem : part ∈ reading.parts := by
        rw [hparts]
        exact List.mem_singleton_self part
      simp only [Reading.parts, List.length_append, Option.length_toList, Option.isSome_map,
        List.length_singleton] at hcount
      simp only [Reading.parts, List.mem_append, Option.mem_toList, Option.map_eq_some_iff] at hmem
      rcases hmem with ((hown | ⟨nodes, -, rfl⟩) | ⟨nodes, -, rfl⟩) | ⟨nodes, -, rfl⟩
      · have hsome := List.length_pos_of_mem hown
        -- There is one part, and it is an own one, so no composite keyword adds another.
        refine ⟨⟨part, hown, hcombined⟩, ?_, ?_, ?_⟩
        · refine Option.not_isSome_iff_eq_none.mp fun hone => ?_
          rw [if_pos hone] at hcount
          omega
        · refine Option.not_isSome_iff_eq_none.mp fun hany => ?_
          rw [if_pos hany] at hcount
          omega
        · refine Option.not_isSome_iff_eq_none.mp fun hall => ?_
          rw [if_pos hall] at hcount
          omega
      · cases hcombined
      · cases hcombined
      · cases hcombined
  · cases hcombined

/-- **A schema that is read as an object is a schema object without composite keywords**, whose object keywords give
the object. -/
theorem objectForm_of_readAt {schema : Value} {node : Node} (h : readAt schema path = .ok node)
    (hkind : node.kind = .object properties required additional closed) :
    ∃ members, schema = .obj members ∧ ObjectForm members properties required additional closed ∧
      ∀ keyword ∈ composites, Entries.get? members keyword = none := by
  obtain ⟨-, members, -, rfl, -⟩ := Reader.readWithin_eq_ok.mp h
  rw [Reader.readAt_obj, Reader.objectNode_eq_ok] at h
  obtain ⟨reading, hof, rfl⟩ := h
  obtain ⟨⟨part, hpart, hobject⟩, hone, hany, hall⟩ := own_of_object hkind
  have habsent : ∀ keyword kind, Reader.branches readAt members keyword kind path = .ok none →
      Entries.get? members keyword = none := by
    intro keyword kind hbranches
    rcases Reader.branches_eq_ok hbranches with ⟨hget, -⟩ | ⟨_, _, -, -, -, hsome⟩
    · exact hget
    · cases hsome
  refine ⟨members, rfl, objectForm_of_ownParts (Reader.ownParts_eq_ok hof.own) hpart hobject, ?_⟩
  intro keyword hkeyword
  rcases composite_cases hkeyword with rfl | rfl | rfl
  · exact habsent _ _ (hone ▸ hof.oneOf)
  · exact habsent _ _ (hany ▸ hof.anyOf)
  · exact habsent _ _ (hall ▸ hof.allOf)

end ZodRoutes.Schema
