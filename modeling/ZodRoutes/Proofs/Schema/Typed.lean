/-
What the `type` keyword says of an accepted schema.

A type that counts is never lost: whatever other keywords a schema object has, the values that its node
accepts are of a listed type, null apart.  This is read off the meaning of the schema, where the types are one
group among the others, so it does not matter which part of the reader took care of them.

The names themselves are another matter.  They are looked at only where the types are read: where no values
are listed, or where a constraint stands beside the listed values.  Everywhere else the schema object is read
as if it had no `type`, null in the list aside, and a name that is none of a type goes unnoticed; so does a
list of nothing but null, which leaves every value accepted.
-/
import ZodRoutes.Proofs.Schema.Accepted
import ZodRoutes.Proofs.Schema.Alike

namespace ZodRoutes

/-- A value is of a type that the `type` keyword can name; an integer is a number without a fraction. -/
inductive Json.Value.HasType : Json.Value → String → Prop
  | string (text : String) : HasType (.str text) "string"
  | number (n : Json.Number) : HasType (.num n) "number"
  | integer {n : Json.Number} (whole : n.isWhole) : HasType (.num n) "integer"
  | boolean (b : Bool) : HasType (.bool b) "boolean"
  | null : HasType .null "null"
  | array (elements : List Json.Value) : HasType (.arr elements) "array"
  | object (fields : List (String × Json.Value)) : HasType (.obj fields) "object"

namespace Schema

open Grammar (TypesRead knownTypes)
open Json (Value)
open Meaning
open Reader
open Steps (bind_eq_ok pure_eq_ok)

variable {inner : Inner} {members members' : Members} {path : Path} {node : Node} {value : Value}

/-! ### Types that count -/

/-- What a schema object says of a type goes beyond the type. -/
theorem Meaning.IsOfType.hasType {meets : Value → Value → Prop} {name : String}
    (h : IsOfType meets members value name) : value.HasType name := by
  rcases h with ⟨rfl, text, rfl⟩ | ⟨rfl, n, rfl⟩ | ⟨rfl, n, rfl, hwhole⟩ | ⟨rfl, b, rfl⟩ | ⟨rfl, rfl⟩ |
    ⟨rfl, fields, rfl, -⟩ | ⟨rfl, _, elements, -, rfl, -⟩
  · exact .string text
  · exact .number n
  · exact .integer hwhole
  · exact .boolean b
  · exact .null
  · exact .object fields
  · exact .array elements

/-- **A value other than null is accepted only if it is of a listed type**, when some type counts. -/
theorem hasType_of_accepts (h : readAt (.obj members) path = .ok node) (hnamed : ∃ name, Named members name)
    {holds : Rule → Value → Prop} (haccepts : node.Accepts holds value) (hvalue : value ≠ .null) :
    ∃ name ∈ listedTypes members, value.HasType name := by
  have hmeets : Meets holds (.obj members) value :=
    (readWithin_faithful holds _ (.obj members) node ⟨path, h⟩ value).mp haccepts
  rcases meets_obj.mp hmeets with ⟨hnull, -⟩ | hgroups
  · exact absurd hnull hvalue
  · obtain ⟨name, hname, hof, -⟩ := hgroups.types hnamed
    exact ⟨name, hname.1, hof.hasType⟩

/-- **The listed names are names of types** where they are looked at. -/
theorem known_of_readAt (h : readAt (.obj members) path = .ok node)
    (hread : listedValues? members = none ∨ ∃ rule, States members rule) {name : String}
    (hname : name ∈ listedTypes members) : name ∈ knownTypes := by
  have hgrammatical : Grammar.Grammatical (.obj members) :=
    (succeeds_readWithin (Nat.le_refl _) path).mp ⟨node, h⟩
  have hformed : Grammar.WellFormed members := (Grammar.grammatical_obj.mp hgrammatical).1
  by_cases hnamed : Named members name
  · exact (hformed.types ⟨⟨name, hnamed⟩, hread⟩).known name hnamed
  · -- The only listed name that does not count is null among several.
    have hnull : name = "null" := by
      by_contra hne
      exact hnamed ⟨hname, fun hboth => hne hboth.1⟩
    rw [hnull]
    decide

/-! ### Types that are not looked at -/

/-- The members of a schema object without its `type`. -/
def untyped (members : Members) : Members :=
  members.filter fun member => decide (member.1 ≠ "type")

theorem agreeOff_untyped : Entries.AgreeOff ["type"] (untyped members) members := by
  intro name hname
  have hne : name ≠ "type" := fun heq => hname (List.mem_singleton.mpr heq)
  exact @Entries.get?_filter _ _ _ (fun other => decide (other ≠ "type")) (decide_eq_true hne)

theorem types_untyped : types (untyped members) path = .ok ⟨[], false⟩ := by
  have habsent : Entries.get? (untyped members) "type" = none := by
    rw [Entries.get?_eq_none]
    intro hmem
    obtain ⟨member, hmember, hname⟩ := List.mem_map.mp hmem
    have hne : member.1 ≠ "type" := of_decide_eq_true (List.mem_filter.mp hmember).2
    exact hne hname
  unfold types
  rw [keyword?_eq_none.mpr habsent]
  rfl

namespace Reader

/-- Types that are not looked at leave the own parts as they are. -/
theorem ownParts_skipped {names : List String} {rules : List Rule} {given : Option Allowed} {own : List Node}
    (h : ownParts inner members names rules given path = .ok own)
    (hskipped : names = [] ∨ (given ≠ none ∧ rules = [])) :
    ownParts inner members [] rules given path = .ok own := by
  rcases hskipped with rfl | ⟨hgiven, rfl⟩
  · exact h
  · obtain ⟨allowed, rfl⟩ := Option.ne_none_iff_exists'.mp hgiven
    unfold ownParts at h
    obtain ⟨⟨⟩, -, h⟩ := bind_eq_ok.mp h
    rw [if_pos (by simp), pure_eq_ok] at h
    rw [← h]
    rfl

/-- Without types the own parts ask for no other keyword than those that imply a kind. -/
theorem ownParts_untyped {rules : List Rule} {given : Option Allowed} :
    ownParts inner (untyped members) [] rules given path = ownParts inner members [] rules given path := by
  have himplied : impliedNode? inner (untyped members) rules path = impliedNode? inner members rules path :=
    impliedNode?_congr (agreeOff_untyped.agreeOn (by decide))
  cases given with
  | none =>
      unfold ownParts
      simp only [himplied, List.isEmpty_nil, if_true]
  | some allowed => rfl

/-- Where the types are not read, none counts, or values are listed and no rule is. -/
theorem Reading.Of.skipped {reading : Reading} (h : reading.Of inner members path)
    (hskipped : ¬ TypesRead members) :
    reading.types.names = [] ∨ (reading.allowed ≠ none ∧ reading.rules = []) := by
  by_cases hnames : reading.types.names = []
  · exact .inl hnames
  · right
    obtain ⟨name, hname⟩ := List.exists_mem_of_ne_nil _ hnames
    have hnamed : ∃ name, Named members name := ⟨name, (mem_names_types h.types).mp hname⟩
    refine ⟨fun hnone => ?_, List.eq_nil_iff_forall_not_mem.mpr fun rule hrule => ?_⟩
    · exact hskipped ⟨hnamed, .inl ((listedValues?_eq_none h.allowed).mpr hnone)⟩
    · exact hskipped ⟨hnamed, .inr ⟨rule, (mem_rules h.rules).mp hrule⟩⟩

/-- Every other group is read without the `type` keyword as with it. -/
theorem Reading.Of.untyped {reading : Reading} (h : reading.Of inner members path)
    (hskipped : ¬ TypesRead members) :
    ({ reading with types := ⟨[], false⟩ } : Reading).Of inner (untyped members) path where
  noReference := (agreeOff_untyped "$ref" (by decide)).trans h.noReference
  types := types_untyped
  isNullable := (nullable_congr (agreeOff_untyped.agreeOn (by decide))).trans h.isNullable
  rules := (rules_congr (agreeOff_untyped.agreeOn (by decide))).trans h.rules
  allowed := (allowed_congr (agreeOff_untyped.agreeOn (by decide))).trans h.allowed
  own := ownParts_untyped.trans (ownParts_skipped h.own (h.skipped hskipped))
  oneOf := (branches_congr (agreeOff_untyped.agreeOn (by decide))).trans h.oneOf
  anyOf := (branches_congr (agreeOff_untyped.agreeOn (by decide))).trans h.anyOf
  allOf := (branches_congr (agreeOff_untyped.agreeOn (by decide))).trans h.allOf

end Reader

/-- **Types that are not looked at only admit null**: without them the schema is read as the same kind with
the same rules. -/
theorem readAt_untyped (h : readAt (.obj members) path = .ok node) (hskipped : ¬ TypesRead members) :
    ∃ node', readAt (.obj (untyped members)) path = .ok node' ∧ node.kind = node'.kind ∧
      node.rules = node'.rules ∧ (node.nullable ↔ node'.nullable ∨ NullListed members) := by
  rw [readAt_obj] at h
  obtain ⟨reading, hof, rfl⟩ := objectNode_eq_ok.mp h
  rw [readAt_obj]
  refine ⟨_, objectNode_eq_ok.mpr ⟨_, hof.untyped hskipped, rfl⟩, rfl, rfl, ?_⟩
  -- The parts are the same; of what admits null only the list of types is missing.
  have hnullable : ∀ reading : Reading,
      reading.node.nullable = ((combine reading.parts).nullable || reading.withNull) := fun _ => rfl
  rw [← withNull_types hof.types, hnullable, hnullable]
  show _ ↔ ((combine reading.parts).nullable || (false || reading.isNullable || _)) = true ∨ _
  unfold Reading.withNull
  cases reading.types.withNull <;> simp

/-- **How far the `type` keyword is honoured.**  When some type counts, every value that is accepted is null
or of a listed type, whatever the rules allow.  When no values are listed or a constraint is stated, every
listed name is the name of a type.  Where the types are not read at all, the schema is read as it is without
them, null in the list aside. -/
theorem readAt_types {members : Members} {path : Path} {node : Node}
    (h : readAt (.obj members) path = .ok node) :
    ((∃ name, Named members name) → ∀ holds value, node.Accepts holds value → value ≠ .null →
        ∃ name ∈ listedTypes members, value.HasType name) ∧
      ((listedValues? members = none ∨ ∃ rule, States members rule) →
        ∀ name ∈ listedTypes members, name ∈ knownTypes) ∧
      (¬ TypesRead members → ∃ node', readAt (.obj (untyped members)) path = .ok node' ∧
        node.kind = node'.kind ∧ node.rules = node'.rules ∧
        (node.nullable ↔ node'.nullable ∨ NullListed members)) := by
  refine ⟨?_, ?_, readAt_untyped h⟩
  · intro hnamed holds value haccepts hvalue
    exact hasType_of_accepts h hnamed haccepts hvalue
  · intro hread name hname
    exact known_of_readAt h hread hname

/-- The letter `a`, of a type beside another one that is misspelt. -/
def misspeltType : Members :=
  [("type", .arr [.str "string", .str "strnig"]), ("enum", .arr [.str "a"])]

/-- The letter `a` or null, with a constraint beside the listed value. -/
def constrainedLetter : Members :=
  [("type", .arr [.str "string", .str "null"]), ("enum", .arr [.str "a"]), ("minLength", .num (.int 1))]

theorem readAt_types_misspelt :
    readAt (.obj misspeltType) .root = .ok (Kind.enumeration [.str "a"]).plain ∧ "strnig" ∉ knownTypes ∧
      (∃ name ∈ listedTypes misspeltType, (Value.str "a").HasType name) ∧
      (∃ node, readAt (.obj [("enum", .arr [.str "a"])]) .root = .ok node ∧
        Kind.enumeration [.str "a"] = node.kind ∧ [] = node.rules) ∧
      ∀ name ∈ listedTypes constrainedLetter, name ∈ knownTypes := by
  have hread : readAt (.obj misspeltType) .root = .ok (Kind.enumeration [.str "a"]).plain := rfl
  have hlisted : listedValues? misspeltType = some [.str "a"] := rfl
  have hnamed : Named misspeltType "string" := by
    refine ⟨by decide, fun hboth => ?_⟩
    exact absurd hboth.1 (by decide)
  have hskipped : ¬ TypesRead misspeltType := by
    rintro ⟨-, hnone | ⟨rule, hrule⟩⟩
    · rw [hlisted] at hnone
      exact absurd hnone (by simp)
    · have hrules : rules misspeltType .root = .ok [] := rfl
      exact absurd ((mem_rules hrules).mpr hrule) List.not_mem_nil
  have haccepts : (Kind.enumeration [.str "a"]).plain.Accepts (fun _ _ => True) (Value.str "a") := by
    rw [Kind.accepts_plain, Kind.accepts_enumeration]
    exact ⟨.str "a", by simp, rfl⟩
  have hstated : States constrainedLetter (.minLength 1) := ⟨.int 1, rfl, rfl⟩
  obtain ⟨htypes, -, huntyped⟩ := readAt_types hread
  obtain ⟨node, hnode, hkind, hrules, -⟩ := huntyped hskipped
  obtain ⟨letter, hletter⟩ : ∃ node, readAt (.obj constrainedLetter) .root = .ok node := ⟨_, rfl⟩
  refine ⟨hread, by decide, ?_, ⟨node, hnode, hkind, hrules⟩, ?_⟩
  · exact htypes ⟨_, hnamed⟩ (fun _ _ => True) _ haccepts (by simp)
  · exact (readAt_types hletter).2.1 (.inr ⟨_, hstated⟩)

end Schema

end ZodRoutes
