/-
The reader keeps the meaning of a schema.

The reader takes shortcuts: types beside listed values are dropped when no constraint stands with them,
several types become a union of branches with fewer rules each, the branches of `allOf` are spliced into
the intersection of all parts, and null moves from three keywords into one flag.  None of them changes
which values are accepted.

Each group of a schema object is compared with the part that it was read as.  The listed values and the
types have to be compared together, because dropping the types is sound only for values that are listed
and fit some type; and null has to be set aside first, because its flag makes up for a part that lost it.
-/
import ZodRoutes.Proofs.Schema.Meaning
import ZodRoutes.Proofs.Schema.Reading

namespace ZodRoutes.Schema

namespace Reader

open Decimal (Double)
open Json (Value)
open Meaning
open Steps (bind_eq_ok pure_eq_ok mapM_eq_some filterMap_of_mapM)

variable {inner : Inner} {members : Members} {path : Path}

/-! ### Types and null -/

theorem types_eq_ok {result : Types} (h : types members path = .ok result) :
    result = Types.ofListed (listedTypes members) := by
  unfold types at h
  obtain ⟨listed, hlisted, h⟩ := bind_eq_ok.mp h
  rw [pure_eq_ok] at h
  subst h
  unfold listedTypes
  rcases keyword?_eq_ok.mp hlisted with ⟨habsent, rfl⟩ | ⟨value, names, hvalue, hview, rfl⟩
  · rw [habsent]
    rfl
  · rw [hvalue]
    unfold listedTypes? at hview
    split at hview
    · cases hview
      rfl
    · dsimp only
      rw [filterMap_of_mapM hview]
      rfl
    · simp at hview

/-- The types that are read are those that count. -/
theorem mem_names_types {result : Types} (h : types members path = .ok result) {name : String} :
    name ∈ result.names ↔ Named members name := by
  rw [types_eq_ok h]
  unfold Types.ofListed Named NullListed
  by_cases hseveral : 1 < (listedTypes members).length
  · rw [if_pos hseveral, Entries.mem_distinct, List.mem_filter, decide_eq_true_iff]
    constructor
    · rintro ⟨hlisted, hnull⟩
      exact ⟨hlisted, fun hboth => hnull hboth.1⟩
    · rintro ⟨hlisted, hnull⟩
      exact ⟨hlisted, fun heq => hnull ⟨heq, hseveral, heq ▸ hlisted⟩⟩
  · rw [if_neg hseveral]
    simp [hseveral]

theorem withNull_types {result : Types} (h : types members path = .ok result) :
    result.withNull ↔ NullListed members := by
  rw [types_eq_ok h]
  unfold Types.ofListed NullListed
  by_cases hseveral : 1 < (listedTypes members).length <;> simp [hseveral]

theorem nullable_eq_ok {result : Bool} (h : nullable members path = .ok result) :
    result ↔ IsTrue members "nullable" := by
  unfold nullable at h
  obtain ⟨given, hgiven, h⟩ := bind_eq_ok.mp h
  rw [pure_eq_ok] at h
  subst h
  unfold IsTrue
  rcases keyword?_eq_ok.mp hgiven with ⟨habsent, rfl⟩ | ⟨value, b, hvalue, hview, rfl⟩
  · simp [habsent]
  · rw [Value.bool?_eq_some] at hview
    simp [hvalue, hview]

/-! ### Constraints -/

/-- A number keyword, when it is accepted, has the number it was read as. -/
theorem hasNumber_of_keyword {keyword : String} {result : Option Double}
    (h : keyword? Value.double? .notNumber members keyword path = .ok result) {x : Double} :
    result = some x ↔ HasNumber members keyword x := by
  unfold HasNumber
  rcases keyword?_eq_ok.mp h with ⟨habsent, rfl⟩ | ⟨value, y, hvalue, hview, rfl⟩
  · simp [habsent]
  · cases value <;> simp_all [Value.double?]

theorem mem_countRules {keyword : String} {rule : Nat → Rule} {result : List Rule}
    (h : countRules keyword rule members path = .ok result) {r : Rule} :
    r ∈ result ↔ ∃ count, r = rule count ∧ HasCount members keyword count := by
  unfold countRules at h
  obtain ⟨count, hcount, h⟩ := bind_eq_ok.mp h
  rw [pure_eq_ok] at h
  subst h
  unfold HasCount
  rcases keyword?_eq_ok.mp hcount with ⟨habsent, rfl⟩ | ⟨value, count, hvalue, hview, rfl⟩
  · simp [habsent]
  · cases value <;> simp_all [Value.count?]

theorem mem_formatRules {result : List Rule} (h : formatRules members path = .ok result) {r : Rule} :
    r ∈ result ↔ ∃ f, r = .format f ∧ States members (.format f) := by
  unfold formatRules at h
  obtain ⟨format, hformat, h⟩ := bind_eq_ok.mp h
  rw [pure_eq_ok] at h
  subst h
  unfold States
  rcases keyword?_eq_ok.mp hformat with ⟨habsent, rfl⟩ | ⟨value, name, hvalue, hview, rfl⟩
  · simp [habsent]
  · rw [Value.str?_eq_some] at hview
    rw [Option.mem_toList, Option.map_eq_some_iff]
    simp [hvalue, hview, eq_comm, and_comm]

theorem mem_patternRules {result : List Rule} (h : patternRules members path = .ok result)
    {r : Rule} : r ∈ result ↔ ∃ source, r = .pattern source ∧ States members (.pattern source) := by
  unfold patternRules at h
  obtain ⟨source, hsource, h⟩ := bind_eq_ok.mp h
  rw [pure_eq_ok] at h
  subst h
  unfold States
  rcases keyword?_eq_ok.mp hsource with ⟨habsent, rfl⟩ | ⟨value, source, hvalue, hview, rfl⟩
  · simp [habsent]
  · rw [Value.str?_eq_some] at hview
    simp [hvalue, hview]

theorem mem_stepRules {result : List Rule} (h : stepRules members path = .ok result) {r : Rule} :
    r ∈ result ↔ ∃ x, r = .multipleOf x ∧ HasNumber members "multipleOf" x := by
  unfold stepRules at h
  obtain ⟨step, hstep, h⟩ := bind_eq_ok.mp h
  simp only [← hasNumber_of_keyword hstep]
  cases step with
  | none =>
      rw [pure_eq_ok] at h
      simp [← h]
  | some step =>
      dsimp only at h
      split at h
      · rw [pure_eq_ok] at h
        simp [← h]
      · exact absurd h fails_ne_ok

/-- The bound counts as exclusive when its exclusive keyword is true; a number there counts too. -/
theorem mem_boundRules {inclusive exclusive : String} {within beyond : Double → Rule}
    {result : List Rule} (h : boundRules inclusive exclusive within beyond members path = .ok result)
    {r : Rule} : r ∈ result ↔
      (∃ x, r = within x ∧ HasNumber members inclusive x ∧ ¬ IsTrue members exclusive) ∨
        ∃ x, r = beyond x ∧ (HasNumber members exclusive x ∨
          (IsTrue members exclusive ∧ HasNumber members inclusive x)) := by
  unfold boundRules at h
  obtain ⟨bound, hbound, h⟩ := bind_eq_ok.mp h
  simp only [← hasNumber_of_keyword hbound]
  unfold IsTrue
  split at h
  · next hexclusive =>
      rw [pure_eq_ok] at h
      simp [← h, hexclusive, HasNumber, eq_comm, and_comm]
  · next hexclusive =>
      rw [pure_eq_ok] at h
      simp [← h, hexclusive, HasNumber, eq_comm, and_comm]
  · next hexclusive =>
      cases bound with
      | none => exact absurd h fails_ne_ok
      | some x =>
          rw [pure_eq_ok] at h
          simp [← h, hexclusive, HasNumber, eq_comm]
  · next value _ htrue hexclusive =>
      obtain ⟨own, hown, h⟩ := bind_eq_ok.mp h
      simp only [← hasNumber_of_keyword hown]
      rw [pure_eq_ok] at h
      have hne : value ≠ .bool true := fun heq => htrue heq
      simp [← h, hexclusive, hne, eq_comm, and_comm]

/-- **The rules that are read are the constraints that the schema states.** -/
theorem mem_rules {result : List Rule} (h : rules members path = .ok result) {rule : Rule} :
    rule ∈ result ↔ States members rule := by
  unfold rules at h
  simp only [bind_eq_ok, pure_eq_ok] at h
  obtain ⟨format, hformat, minLength, hminLength, maxLength, hmaxLength, pattern, hpattern, lower,
    hlower, upper, hupper, step, hstep, minItems, hminItems, maxItems, hmaxItems, rfl⟩ := h
  simp only [List.mem_append, mem_formatRules hformat, mem_countRules hminLength,
    mem_countRules hmaxLength, mem_patternRules hpattern, mem_boundRules hlower, mem_boundRules hupper,
    mem_stepRules hstep, mem_countRules hminItems, mem_countRules hmaxItems]
  cases rule <;> simp [States]

/-! ### Objects and types -/

variable {holds : Rule → Value → Prop} {meets : Value → Value → Prop} {value : Value}

/-- The schemas inside are read faithfully. -/
def InnerFaithful (holds : Rule → Value → Prop) (meets : Value → Value → Prop) (inner : Inner) : Prop :=
  ∀ schema node, Reads inner schema node → ∀ value, node.Accepts holds value ↔ meets schema value

theorem requiredNames_eq_ok {result : List String} (h : requiredNames members path = .ok result) :
    result = required members := by
  unfold requiredNames at h
  obtain ⟨listed, hlisted, h⟩ := bind_eq_ok.mp h
  unfold required
  rcases keyword?_eq_ok.mp hlisted with ⟨habsent, rfl⟩ | ⟨value, names, hvalue, hview, rfl⟩
  · rw [habsent]
    exact (pure_eq_ok.mp h).symm
  · rw [Value.arr?_eq_some] at hview
    rw [hvalue, hview]
    dsimp only at h ⊢
    split at h
    · exact absurd h fails_ne_ok
    · next hnames => rw [filterMap_of_mapM hnames, pure_eq_ok.mp h]

/-- Properties are read name by name. -/
theorem properties_correspond {result : Entries Node}
    (h : Reader.properties inner members path = .ok result) :
    Entries.Corresponds (Reads inner) (Meaning.properties members) result ∧
      Entries.ofList result = result := by
  unfold Meaning.properties
  rcases properties_eq_ok h with ⟨habsent, rfl⟩ | ⟨schemas, nodes, hschemas, hread, rfl⟩
  · rw [habsent]
    exact ⟨.nil, rfl⟩
  · rw [hschemas]
    exact ⟨hread.ofList, Entries.ofList_of_nodup (Entries.nodup_names_ofList nodes)⟩

theorem Additional.accepts (hinner : InnerFaithful holds meets inner) {node : Option Node} {isClosed : Bool}
    (h : Additional inner members node isClosed) (value : Value) :
    (∀ d ∈ node, d.Accepts holds value) ↔ ∀ d ∈ Meaning.additional members, meets d value := by
  unfold Meaning.additional
  cases h with
  | absent h => simp [h]
  | allowed h => simp [h]
  | refused h => simp [h]
  | @schema schema node h notBool read =>
      rw [h]
      split
      · next heq => exact absurd (Option.some.inj heq) (notBool _)
      · simpa using hinner _ _ read value

theorem Additional.refuses {node : Option Node} {isClosed : Bool}
    (h : Additional inner members node isClosed) :
    (isClosed ∧ node = none) ↔ (closed members ∧ Meaning.additional members = none) := by
  unfold Meaning.additional closed
  cases h with
  | absent h => simp [h]
  | allowed h => simp [h]
  | refused h => simp [h]
  | @schema schema node h notBool read =>
      rw [h]
      split
      · next heq => exact absurd (Option.some.inj heq) (notBool _)
      · simp

/-- The object kind accepts what the object keywords allow. -/
theorem ObjectKind.accepts (hinner : InnerFaithful holds meets inner) {kind : Kind}
    (h : ObjectKind inner members path kind) :
    kind.Accepts holds value ↔ MeetsObject meets members value := by
  obtain ⟨hrequired, hproperties, hadditional⟩ := h
  obtain ⟨hread, hwritten⟩ := properties_correspond hproperties
  rw [requiredNames_eq_ok hrequired, Kind.accepts_object, hwritten]
  unfold MeetsObject
  refine exists_congr fun fields => and_congr_right fun _ => ?_
  refine MembersFit.congr ?_ ?_ (hadditional.accepts hinner) hadditional.refuses
  · exact hread.symm.imp fun _ _ hentry => ⟨hentry.1, hinner _ _ hentry.2⟩
  · intro name hname
    simp [hname]

/-- An array kind accepts what `items` allows. -/
theorem accepts_array_iff (hinner : InnerFaithful holds meets inner) {items : Value} {node : Node}
    (h : Entries.get? members "items" = some items) (read : Reads inner items node) :
    (Kind.array node).Accepts holds value ↔ MeetsArray meets members value := by
  rw [Kind.accepts_array]
  unfold MeetsArray
  simp only [h, Option.some.injEq, hinner _ _ read]
  constructor
  · rintro ⟨elements, hvalue, heach⟩
    exact ⟨items, elements, rfl, hvalue, heach⟩
  · rintro ⟨_, elements, rfl, hvalue, heach⟩
    exact ⟨elements, hvalue, heach⟩

theorem TypedKind.accepts (hinner : InnerFaithful holds meets inner) {name : String} {kind : Kind}
    (h : TypedKind inner members name kind) :
    kind.Accepts holds value ↔ IsOfType meets members value name := by
  unfold IsOfType
  cases h with
  | array hitems read =>
      rw [accepts_array_iff hinner hitems read]
      simp
  | object hobject =>
      rw [hobject.accepts hinner]
      simp
  | _ => simp

/-- A rule stands on the kind of a type when constraints of its sort apply to the type. -/
theorem TypedKind.appliesTo {name : String} {kind : Kind} (h : TypedKind inner members name kind)
    {rule : Rule} : rule.appliesTo kind ↔ Constrains rule.subject name := by
  unfold Rule.appliesTo
  cases h with
  | object hobject =>
      obtain ⟨⟩ := hobject
      cases rule.subject <;> simp [Kind.subject?, Constrains]
  | _ => cases rule.subject <;> simp [Kind.subject?, Constrains]

/-- The branch of a type accepts the values of that type that satisfy the constraints on it. -/
theorem TypedKind.accepts_applicable (hinner : InnerFaithful holds meets inner) {name : String}
    {kind : Kind} (h : TypedKind inner members name kind) {rules : List Rule}
    (hrules : ∀ rule, rule ∈ rules ↔ States members rule) (value : Value) :
    (⟨kind, kind.applicable rules, false⟩ : Node).Accepts holds value ↔
      IsOfType meets members value name ∧ Satisfies holds members value name := by
  have hsatisfies : (∀ rule ∈ kind.applicable rules, holds rule value) ↔
      Satisfies holds members value name := by
    unfold Kind.applicable Satisfies
    simp only [List.mem_filter, hrules, h.appliesTo, and_imp]
  rw [Node.accepts_iff, h.accepts hinner, hsatisfies]
  simp

theorem TypedNode.accepts (hinner : InnerFaithful holds meets inner) {names : List String}
    {node : Node} {rules : List Rule} (h : TypedNode inner members rules names node)
    (hrules : ∀ rule, rule ∈ rules ↔ States members rule) :
    node.Accepts holds value ↔
      ∃ name ∈ names, IsOfType meets members value name ∧ Satisfies holds members value name := by
  cases h with
  | @single name kind read applies =>
      have hall : kind.applicable rules = rules :=
        List.filter_eq_self.mpr fun rule hrule => by simpa using applies rule hrule
      have hbranch := read.accepts_applicable hinner hrules value
      rw [hall] at hbranch
      simpa using hbranch
  | several read _ =>
      simp only [Kind.accepts_plain, Kind.accepts_union, List.mem_map, exists_exists_and_eq_and]
      exact Steps.exists_mem_iff read fun name kind hkind => hkind.accepts_applicable hinner hrules value

theorem ImpliedNode.accepts (hinner : InnerFaithful holds meets inner) {rules : List Rule}
    {result : Option Node} (h : ImpliedNode inner members rules result)
    (hrules : ∀ rule, rule ∈ rules ↔ States members rule) :
    (∀ node ∈ result, node.Accepts holds value) ↔
      if Entries.has members "properties" ∨ Entries.has members "additionalProperties" then
        MeetsObject meets members value
      else Entries.has members "items" →
        MeetsArray meets members value ∧ Satisfies holds members value "array" := by
  cases h with
  | object keywords hobject =>
      have hnone : Satisfies holds members value "object" := by
        intro rule _ hconstrains
        cases hsubject : rule.subject <;> simp [hsubject, Constrains] at hconstrains
      have haccepts := (TypedKind.object hobject).accepts_applicable hinner hrules value
      rw [if_pos keywords]
      simpa [IsOfType, hnone] using haccepts
  | array keywords hitems read =>
      have haccepts := (TypedKind.array hitems read).accepts_applicable hinner hrules value
      rw [if_neg keywords]
      simpa [IsOfType, Entries.has, hitems] using haccepts
  | nothing keywords hitems =>
      rw [if_neg keywords]
      simp [Entries.has, hitems]

/-! ### Listed values -/

/-- The value that was listed: null, or a literal. -/
def listedValue : Option Literal → Value
  | none => .null
  | some literal => literal.toValue

theorem listedLiteral?_eq_some {value : Value} {listed : Option Literal} :
    listedLiteral? value = some listed ↔ value = listedValue listed := by
  unfold listedValue
  cases value <;> cases listed with
  | none => simp [listedLiteral?, Literal.ofValue?]
  | some literal => cases literal <;> simp [listedLiteral?, Literal.ofValue?, Literal.toValue]

theorem mapM_listedLiteral? {values : List Value} {listed : List (Option Literal)}
    (h : values.mapM listedLiteral? = some listed) : values = listed.map listedValue := by
  rw [mapM_eq_some] at h
  induction h with
  | nil => rfl
  | cons hfirst _ ih => rw [List.map_cons, ← ih, listedLiteral?_eq_some.mp hfirst]

theorem enumLiterals_eq_ok {result : Option (List Literal × Bool)}
    (h : enumLiterals members path = .ok result) :
    (Entries.get? members "enum" = none ∧ result = none) ∨
      ∃ listed, Entries.get? members "enum" = some (.arr (listed.map listedValue)) ∧ listed ≠ [] ∧
        result = some (listed.filterMap id, listed.any Option.isNone) := by
  unfold enumLiterals at h
  obtain ⟨given, hgiven, h⟩ := bind_eq_ok.mp h
  rcases keyword?_eq_ok.mp hgiven with ⟨habsent, rfl⟩ | ⟨value, values, hvalue, hview, rfl⟩
  · exact .inl ⟨habsent, (pure_eq_ok.mp h).symm⟩
  · rw [Value.arr?_eq_some] at hview
    subst hview
    split at h
    · next habsurd => cases habsurd
    · exact absurd h fails_ne_ok
    · next values' hfilled heq =>
        cases heq
        split at h
        · exact absurd h fails_ne_ok
        · next listed hlisted =>
            have hvalues := mapM_listedLiteral? hlisted
            refine .inr ⟨listed, by rw [hvalue, hvalues], ?_, (pure_eq_ok.mp h).symm⟩
            rintro rfl
            exact hfilled (by simpa using hvalues)

/-- The allowed values are the listed ones, null aside. -/
theorem allowed_eq_ok {result : Option Allowed} (h : allowed members path = .ok result) :
    (listedValues? members = none ∧ result = none) ∨
      ∃ listed keyword, listedValues? members = some (listed.map listedValue) ∧ listed ≠ [] ∧
        result = some ⟨keyword, listed.filterMap id, listed.any Option.isNone⟩ := by
  unfold allowed at h
  obtain ⟨given, hgiven, h⟩ := bind_eq_ok.mp h
  obtain ⟨constant, hconstant, h⟩ := bind_eq_ok.mp h
  unfold listedValues?
  rcases keyword?_eq_ok.mp hconstant with ⟨habsent, rfl⟩ | ⟨value, literal, hvalue, hview, rfl⟩
  · rw [habsent]
    rcases enumLiterals_eq_ok hgiven with ⟨hnone, rfl⟩ | ⟨listed, henum, hfilled, rfl⟩
    · rw [hnone]
      exact .inl ⟨rfl, (pure_eq_ok.mp h).symm⟩
    · rw [henum]
      exact .inr ⟨listed, "enum", rfl, hfilled, (pure_eq_ok.mp h).symm⟩
  · rw [hvalue, listedLiteral?_eq_some.mp hview]
    refine .inr ⟨[literal], "const", rfl, by simp, ?_⟩
    cases literal <;> dsimp only at h <;> split at h
    all_goals first
      | exact absurd h fails_ne_ok
      | simp [← pure_eq_ok.mp h]

theorem listedValues?_eq_none {result : Option Allowed} (h : allowed members path = .ok result) :
    listedValues? members = none ↔ result = none := by
  rcases allowed_eq_ok h with ⟨hnone, hresult⟩ | ⟨listed, keyword, hsome, -, hresult⟩
  · simp [hnone, hresult]
  · simp [hsome, hresult]

/-- A value that is the same as null is null. -/
theorem null_same {value : Value} : Value.Same .null value ↔ value = .null := by
  cases value <;> simp [Value.Same]

/-- Null listed among the values is admitted. -/
theorem admitsNull_of_allowed {listed : List (Option Literal)}
    (h : listedValues? members = some (listed.map listedValue)) (hmem : none ∈ listed) :
    AdmitsNull members :=
  .inr (.inr ⟨_, h, List.mem_map.mpr ⟨none, hmem, rfl⟩⟩)

/-- The values other than an admitted null are listed as literals. -/
theorem meetsListed_iff {result : Allowed} (h : allowed members path = .ok (some result))
    (hnull : ¬ (value = .null ∧ AdmitsNull members)) :
    MeetsListed members value ↔ ∃ literal ∈ result.values, literal.toValue.Same value := by
  rcases allowed_eq_ok h with ⟨-, habsurd⟩ | ⟨listed, keyword, hlisted, -, hresult⟩
  · exact absurd habsurd (by simp)
  cases hresult
  unfold MeetsListed
  rw [hlisted]
  simp only [Option.some.injEq, forall_eq', List.mem_map, exists_exists_and_eq_and,
    List.mem_filterMap, id_eq, exists_eq_right]
  constructor
  · rintro ⟨_ | literal, hmem, hsame⟩
    · exact absurd ⟨null_same.mp hsame, admitsNull_of_allowed hlisted hmem⟩ hnull
    · exact ⟨literal, hmem, hsame⟩
  · rintro ⟨literal, hmem, hsame⟩
    exact ⟨some literal, hmem, hsame⟩

/-- The node of the allowed values accepts the listed values, an admitted null aside. -/
theorem Allowed.accepts_node (holds : Rule → Value → Prop) {result : Allowed}
    (h : allowed members path = .ok (some result))
    (hnull : ¬ (value = .null ∧ AdmitsNull members)) :
    result.node.Accepts holds value ↔ MeetsListed members value := by
  rw [meetsListed_iff h hnull]
  unfold Allowed.node
  split
  · next hempty =>
      -- Only null is listed, so null is admitted and has been set aside.
      rcases allowed_eq_ok h with ⟨-, habsurd⟩ | ⟨listed, keyword, hlisted, hfilled, hresult⟩
      · exact absurd habsurd (by simp)
      cases hresult
      have hnone : ∀ o ∈ listed, o = none := by simpa using hempty
      obtain ⟨first, hfirst⟩ := List.exists_mem_of_ne_nil listed hfilled
      have hmem : none ∈ listed := hnone first hfirst ▸ hfirst
      rw [Kind.accepts_plain, Kind.accepts_null, List.isEmpty_iff.mp hempty]
      constructor
      · intro heq
        exact absurd ⟨heq, admitsNull_of_allowed hlisted hmem⟩ hnull
      · simp
  · rw [Kind.accepts_plain, Kind.accepts_enumeration]

/-- A value equal to a literal that fits a type is of that type. -/
theorem isOfType_of_fits {literal : Literal} {name : String} (hfits : fits literal name)
    (hsame : literal.toValue.Same value) : IsOfType meets members value name := by
  unfold IsOfType
  cases literal with
  | bool b =>
      cases value <;> simp_all [Literal.toValue, Value.Same, fits]
  | str s =>
      cases value <;> simp_all [Literal.toValue, Value.Same, fits]
  | num m =>
      cases value with
      | num n =>
          have hexact : m.exact = n.exact := hsame
          have hwhole : m.isWhole ↔ n.isWhole := by
            rw [Json.Number.isWhole_iff, Json.Number.isWhole_iff, hexact]
          simp only [fits, Bool.or_eq_true, beq_iff_eq, Bool.and_eq_true] at hfits
          rcases hfits with rfl | ⟨rfl, h⟩
          · simp
          · simp [hwhole.mp h]
      | _ => exact absurd hsame (by simp [Literal.toValue, Value.Same])

/-- Types can be dropped beside listed values when there is no constraint on them. -/
theorem meetsTypes_of_listed {result : Allowed} (h : allowed members path = .ok (some result))
    {names : List String} (hnames : ∀ name, name ∈ names ↔ Named members name)
    (hfit : checkTypes result names path = .ok ()) (hnone : ∀ rule, ¬ States members rule)
    (hnull : ¬ (value = .null ∧ AdmitsNull members)) (hlisted : MeetsListed members value) :
    MeetsTypes holds meets members value := by
  rintro ⟨first, hfirst⟩
  obtain ⟨literal, hliteral, hsame⟩ := (meetsListed_iff h hnull).mp hlisted
  have hnamed : names ≠ [] := List.ne_nil_of_mem ((hnames first).mpr hfirst)
  unfold checkTypes at hfit
  split at hfit
  · next hall =>
      simp only [Bool.or_eq_true, List.isEmpty_iff, hnamed, false_or, List.all_eq_true,
        List.any_eq_true] at hall
      obtain ⟨name, hname, hfits⟩ := hall literal hliteral
      exact ⟨name, (hnames name).mp hname, isOfType_of_fits hfits hsame,
        fun rule hrule => absurd hrule (hnone rule)⟩
  · exact absurd hfit fails_ne_ok

/-! ### All groups together -/

/-- **The own parts say what the listed values, the types and the implied kind say**, null aside. -/
theorem OwnParts.accepts (hinner : InnerFaithful holds meets inner) {names : List String}
    {rules : List Rule} {given : Option Allowed} {own : List Node}
    (h : OwnParts inner members path names rules given own)
    (hnames : ∀ name, name ∈ names ↔ Named members name)
    (hrules : ∀ rule, rule ∈ rules ↔ States members rule)
    (hallowed : allowed members path = .ok given)
    (hnull : ¬ (value = .null ∧ AdmitsNull members)) :
    (∀ part ∈ own, part.Accepts holds value) ↔
      MeetsListed members value ∧ MeetsTypes holds meets members value ∧
        MeetsImplied holds meets members value := by
  have hnamed : names ≠ [] ↔ ∃ name, Named members name := by
    rw [ne_eq, List.eq_nil_iff_forall_not_mem]
    simp [hnames]
  have htypes : ∀ {node : Node}, names ≠ [] → TypedNode inner members rules names node →
      (node.Accepts holds value ↔ MeetsTypes holds meets members value) := by
    intro node hfilled read
    rw [read.accepts hinner hrules]
    unfold MeetsTypes
    simp only [← hnamed, hfilled, ne_eq, not_false_eq_true, forall_const, hnames]
  have hlisted := listedValues?_eq_none hallowed
  have hfree : given = none → MeetsListed members value := by
    intro hnone values hvalues
    rw [hlisted.mpr hnone] at hvalues
    exact absurd hvalues (by simp)
  cases h with
  | @listed result fit alone =>
      have hmeets := Allowed.accepts_node holds hallowed hnull
      have himplied : MeetsImplied holds meets members value := by
        intro _ hnone
        exact absurd (hlisted.mp hnone) (by simp)
      rw [List.forall_mem_singleton, hmeets]
      refine ⟨fun hvalue => ⟨hvalue, ?_, himplied⟩, fun hgroups => hgroups.1⟩
      rcases alone with hempty | hnone
      · intro hsome
        exact absurd hempty (hnamed.mpr hsome)
      · refine meetsTypes_of_listed hallowed hnames fit (fun rule hrule => ?_) hnull hvalue
        rw [← hrules, hnone] at hrule
        simp at hrule
  | @narrowed result node fit named read =>
      have hmeets := Allowed.accepts_node holds hallowed hnull
      have himplied : MeetsImplied holds meets members value := fun hnone => absurd (hnamed.mp named) hnone
      simp [hmeets, htypes named read, himplied]
  | typed named read =>
      have himplied : MeetsImplied holds meets members value := fun hnone => absurd (hnamed.mp named) hnone
      simp [htypes named read, himplied, hfree]
  | implied unnamed read =>
      have hnone : ¬ ∃ name, Named members name := by
        rw [← hnamed, unnamed]
        simp
      have hany : MeetsTypes holds meets members value := fun hsome => absurd hsome hnone
      simp only [Option.mem_toList, ← Option.mem_def]
      rw [read.accepts hinner hrules]
      unfold MeetsImplied
      simp [hnone, hlisted, hfree, hany]

/-- A composite keyword that asks for some branch becomes a union, if it is there. -/
theorem accepts_someOf (hinner : InnerFaithful holds meets inner) {keyword kind : String}
    {result : Option (List Node)} (h : branches inner members keyword kind path = .ok result) :
    (∀ part ∈ (result.map fun nodes => (Kind.union nodes).plain).toList, part.Accepts holds value) ↔
      MeetsSome meets members value keyword := by
  unfold MeetsSome
  rcases branches_eq_ok h with ⟨habsent, rfl⟩ | ⟨schemas, nodes, hschemas, -, hread, rfl⟩
  · simp [habsent]
  · simp only [Option.map_some, Option.toList_some, List.forall_mem_singleton, Kind.accepts_plain,
      Kind.accepts_union, hschemas, Option.some.injEq, Value.arr.injEq, forall_eq']
    exact Steps.exists_mem_iff hread fun schema node hnode => hinner _ _ hnode value

/-- A composite keyword that asks for every branch becomes an intersection, if it is there. -/
theorem accepts_everyOf (hinner : InnerFaithful holds meets inner) {keyword kind : String}
    {result : Option (List Node)} (h : branches inner members keyword kind path = .ok result) :
    (∀ part ∈ (result.map fun nodes => (Kind.intersection nodes).plain).toList,
        part.Accepts holds value) ↔ MeetsEvery meets members value keyword := by
  unfold MeetsEvery
  rcases branches_eq_ok h with ⟨habsent, rfl⟩ | ⟨schemas, nodes, hschemas, -, hread, rfl⟩
  · simp [habsent]
  · simp only [Option.map_some, Option.toList_some, List.forall_mem_singleton, Kind.accepts_plain,
      Kind.accepts_intersection, hschemas, Option.some.injEq, Value.arr.injEq, forall_eq']
    exact Steps.forall_mem_iff hread fun schema node hnode => hinner _ _ hnode value

/-- Splicing loses nothing of an intersection that carries neither rules nor null. -/
def Spliceable (part : Node) : Prop :=
  ∀ branches, part.kind = .intersection branches → part = (Kind.intersection branches).plain

theorem Spliceable.accepts {part : Node} (h : Spliceable part) :
    (∀ branch ∈ flattened part, branch.Accepts holds value) ↔ part.Accepts holds value := by
  unfold flattened
  split
  · next branches hkind => rw [h branches hkind, Kind.accepts_plain, Kind.accepts_intersection]
  · simp

/-- **The combined node accepts what every part accepts.** -/
theorem accepts_combine {parts : List Node} (h : ∀ part ∈ parts, Spliceable part) :
    (combine parts).Accepts holds value ↔ ∀ part ∈ parts, part.Accepts holds value := by
  unfold combine
  split
  · simp
  · simp
  · rw [Kind.accepts_plain, Kind.accepts_intersection]
    simp only [List.mem_flatMap, forall_exists_index, and_imp]
    constructor
    · intro heach part hpart
      exact (h part hpart).accepts.mp fun branch hbranch => heach branch part hpart hbranch
    · intro heach branch part hpart hbranch
      exact (h part hpart).accepts.mpr (heach part hpart) branch hbranch

theorem TypedKind.ne_intersection {name : String} {kind : Kind}
    (h : TypedKind inner members name kind) (branches : List Node) : kind ≠ .intersection branches := by
  cases h with
  | object hobject =>
      obtain ⟨⟩ := hobject
      simp
  | _ => simp

theorem TypedNode.spliceable {names : List String} {node : Node} {rules : List Rule}
    (h : TypedNode inner members rules names node) : Spliceable node := by
  intro branches hkind
  cases h with
  | single read _ => exact absurd hkind (read.ne_intersection branches)
  | several _ _ => simp [Kind.plain] at hkind

theorem Allowed.spliceable (result : Allowed) : Spliceable result.node := by
  intro branches hkind
  unfold Allowed.node Kind.plain at hkind
  split at hkind <;> simp at hkind

/-- Of the own parts none is an intersection. -/
theorem OwnParts.spliceable {names : List String} {rules : List Rule} {given : Option Allowed}
    {own : List Node} (h : OwnParts inner members path names rules given own) :
    ∀ part ∈ own, Spliceable part := by
  cases h with
  | listed _ _ => simpa using Allowed.spliceable _
  | narrowed _ _ read => simpa using ⟨Allowed.spliceable _, read.spliceable⟩
  | typed _ read => simpa using read.spliceable
  | implied _ read =>
      intro part hpart branches hkind
      cases read with
      | object _ hobject =>
          rw [Option.toList_some, List.mem_singleton] at hpart
          subst hpart
          exact absurd hkind ((TypedKind.object hobject).ne_intersection branches)
      | array _ _ _ =>
          rw [Option.toList_some, List.mem_singleton] at hpart
          subst hpart
          simp at hkind
      | nothing _ _ => simp at hpart

theorem Reading.Of.spliceable {reading : Reading} (h : reading.Of inner members path) :
    ∀ part ∈ reading.parts, Spliceable part := by
  intro part hpart
  simp only [Reading.parts, List.mem_append, Option.mem_toList, Option.map_eq_some_iff] at hpart
  rcases hpart with ((hown | ⟨nodes, -, rfl⟩) | ⟨nodes, -, rfl⟩) | ⟨nodes, -, rfl⟩
  · exact (ownParts_eq_ok h.own).spliceable part hown
  · intro branches hkind
    simp [Kind.plain] at hkind
  · intro branches hkind
    simp [Kind.plain] at hkind
  · intro branches hkind
    cases hkind
    rfl

theorem Reading.Of.withNull_iff {reading : Reading} (h : reading.Of inner members path) :
    reading.withNull ↔ AdmitsNull members := by
  have hallowed : reading.allowed.any (·.withNull) ↔
      ∃ values, listedValues? members = some values ∧ .null ∈ values := by
    rcases allowed_eq_ok h.allowed with ⟨hnone, hresult⟩ | ⟨listed, keyword, hsome, -, hresult⟩
    · simp [hnone, hresult]
    · simp only [hresult, hsome, Option.any_some, List.any_eq_true, Option.some.injEq,
        exists_eq_left', List.mem_map]
      refine exists_congr fun o => and_congr_right fun _ => ?_
      cases o with
      | none => simp [listedValue]
      | some literal => cases literal <;> simp [listedValue, Literal.toValue]
  unfold Reading.withNull AdmitsNull
  rw [Bool.or_eq_true, Bool.or_eq_true, withNull_types h.types, nullable_eq_ok h.isNullable, hallowed]
  tauto

/-- **A schema object is read faithfully** when the schemas inside it are. -/
theorem Reading.Of.accepts (hinner : InnerFaithful holds meets inner) {reading : Reading}
    (h : reading.Of inner members path) :
    reading.node.Accepts holds value ↔ MeetsMembers holds meets members value := by
  unfold Reading.node MeetsMembers
  rw [Node.accepts_withNullable, accepts_combine h.spliceable, h.withNull_iff, and_comm]
  by_cases hnull : value = .null ∧ AdmitsNull members
  · simp [hnull]
  · have hown := (ownParts_eq_ok h.own).accepts hinner (fun _ => mem_names_types h.types)
      (fun _ => mem_rules h.rules) h.allowed hnull
    have hgroups : (∀ part ∈ reading.parts, part.Accepts holds value) ↔
        MeetsGroups holds meets members value := by
      unfold Reading.parts
      simp only [List.forall_mem_append]
      rw [hown, accepts_someOf hinner h.oneOf, accepts_someOf hinner h.anyOf,
        accepts_everyOf hinner h.allOf]
      constructor
      · rintro ⟨⟨⟨⟨listed, types, implied⟩, oneOf⟩, anyOf⟩, allOf⟩
        exact ⟨listed, types, implied, oneOf, anyOf, allOf⟩
      · rintro ⟨listed, types, implied, oneOf, anyOf, allOf⟩
        exact ⟨⟨⟨⟨listed, types, implied⟩, oneOf⟩, anyOf⟩, allOf⟩
    rw [hgroups]

theorem readWithin_faithful (holds : Rule → Value → Prop) (depth : Nat) :
    InnerFaithful holds (MeetsWithin holds depth) (readWithin depth) := by
  induction depth with
  | zero =>
      rintro schema node ⟨path, h⟩
      obtain ⟨below, members, habsurd, -⟩ := readWithin_eq_ok.mp h
      exact absurd habsurd (by simp)
  | succ depth ih =>
      rintro schema node ⟨path, h⟩ value
      obtain ⟨below, members, hdepth, rfl, reading, hof, rfl⟩ := readWithin_eq_ok.mp h
      cases hdepth
      exact hof.accepts ih

end Reader

/-- **The reader keeps the meaning of a schema**: the node accepts the values that meet the schema,
whatever the rules allow. -/
theorem accepts_iff_meets {schema : Json.Value} {node : Node} (h : read schema = .ok node)
    (holds : Rule → Json.Value → Prop) (value : Json.Value) :
    node.Accepts holds value ↔ Meets holds schema value :=
  Reader.readWithin_faithful holds _ schema node ⟨_, h⟩ value

/-- Texts of two characters or more, short lists of one letter, or null. -/
def severalTypesSchema : Json.Value :=
  .obj [("type", .arr [.str "string", .str "array", .str "null"]), ("minLength", .num (.int 2)),
    ("maxItems", .num (.int 3)), ("items", .obj [("const", .str "a")])]

/-- Its tree, with each constraint on the branch that it applies to. -/
def severalTypesNode : Node :=
  ⟨.union [⟨.string, [.minLength 2], false⟩,
    ⟨.array ⟨.enumeration [.str "a"], [], false⟩, [.maxItems 3], false⟩], [], true⟩

/-- Lengths as they are usually understood. -/
def lengthHolds : Rule → Json.Value → Prop
  | .minLength n, .str s => n ≤ s.length
  | .maxItems n, .arr elements => elements.length ≤ n
  | _, _ => True

theorem accepts_iff_meets_severalTypes :
    read severalTypesSchema = .ok severalTypesNode ∧
      Meets lengthHolds severalTypesSchema (.arr [.str "a"]) ∧
      Meets lengthHolds severalTypesSchema .null ∧
      ¬ Meets lengthHolds severalTypesSchema (.arr [.str "b"]) := by
  have hread : read severalTypesSchema = .ok severalTypesNode := rfl
  refine ⟨hread, ?_, ?_, ?_⟩
  · rw [← accepts_iff_meets hread]
    simp [severalTypesNode, Node.accepts_iff, Kind.accepts_union, Kind.accepts_array,
      Kind.accepts_enumeration, Literal.toValue, Json.Value.Same, lengthHolds]
  · rw [← accepts_iff_meets hread]
    exact .null
  · rw [← accepts_iff_meets hread]
    simp [severalTypesNode, Node.accepts_iff, Kind.accepts_union, Kind.accepts_array,
      Kind.accepts_enumeration, Literal.toValue, Json.Value.Same]

end ZodRoutes.Schema
