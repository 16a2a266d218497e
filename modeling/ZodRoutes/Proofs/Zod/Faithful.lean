/-
Generated expressions accept what their trees accept.

The expression of a node is that of its kind with its rules chained, and null beside it, so the values that
it accepts are told by those of the nodes below.  By induction every expression of a tree writes a validator
for what the tree accepts, wherever the tree stands.  This is so in every reading, of the trees that suit it,
and up to the required names that the reading waives.

By the letter every tree suits and no name is waived.  No two terms have the same text, so a text that two
trees share is the same term, and what it accepts by the letter both of them accept.  For scripts the reading
is another one: what a tree needs to suit it, and the names that it waives, is what an expression owes to its
language and to the library.
-/
import ZodRoutes.Proofs.Schema.Relaxed
import ZodRoutes.Proofs.Zod.Mapping
import ZodRoutes.Proofs.Zod.Model
import ZodRoutes.Proofs.Zod.Rendering

namespace ZodRoutes.Zod

open Json (Value)
open Schema (Kind MembersFit Node Path Rule SchemaError relaxedAdditional_eq relaxedBranches_eq relaxedProperties_eq
  remaining)

variable {lib : Library} {reading : Reading} {holds : Rule → Value → Prop} {e : Expr} {path : Path}

/-! ### Trees that suit a reading -/

namespace Reading

/-- A node accepts absence in this reading, so that a member need not be there whether it is required or not. -/
def waives (reading : Reading) (node : Node) : Bool :=
  reading.absence && node.acceptsAbsence

/-- The reading takes the names and literals of the kind as they are.  A name under which something is
inherited does so where it does not matter: where a member must be there, or where anything will do. -/
def SuitsKind (reading : Reading) : Kind → Prop
  | .object properties required _ _ => ∀ property ∈ properties, reading.isMember property.1 ∧
    (reading.isInherited property.1 → property.1 ∈ required ∨ reading.waives property.2)
  | .enumeration values => ∀ literal ∈ values, literal.toValue.EachNumber reading.IsNumber
  | _ => True

/-- The reading takes the node as it is. -/
structure Suits (reading : Reading) (compiles : String → Bool) (node : Node) : Prop where
  kind : reading.SuitsKind node.kind
  patterns : ∀ source, .pattern source ∈ node.rules → compiles source
  bounds : node.rules.Pairwise fun rule later => reading.drops rule later = false

/-- What a node accepts in this reading. -/
def Accepts (reading : Reading) (holds : Rule → Value → Prop) (node : Node) : Value → Prop :=
  (node.relaxed reading.waives).Accepts holds

end Reading

/-- Wherever the node stands, its expression writes a validator for what it accepts. -/
def Faithful (lib : Library) (reading : Reading) (holds : Rule → Value → Prop) (node : Node) : Prop :=
  node.Everywhere (reading.Suits lib.compiles) → ∀ path e, mapNode node path = .ok e → e.isOptional = false ∧
    ∃ v, Writes lib e.text (.validator v) ∧
      lib.Means reading v (reading.waives node) (reading.Accepts holds node)

/-! ### Branches -/

theorem faithful_branches {keyword : String} {index : Nat} {branches : List Node} {texts : List String}
    (ih : ∀ branch ∈ branches, Faithful lib reading holds branch)
    (hsuits : ∀ branch ∈ branches, branch.Everywhere (reading.Suits lib.compiles)) (hne : branches ≠ [])
    (h : mapBranches keyword path index branches = .ok texts) :
    texts ≠ [] ∧ ∃ vs, List.Forall₂ (fun text v => Writes lib text (.validator v)) texts vs ∧
      List.Forall₂ (fun branch v => lib.Means reading v (reading.waives branch) (reading.Accepts holds branch))
        branches vs := by
  have hbetween : ∀ branch ∈ branches, ∀ text,
      (∃ position e, mapNode branch (path.joinIndex keyword position) = .ok e ∧ text = e.text) →
      ∃ v, lib.Means reading v (reading.waives branch) (reading.Accepts holds branch) ∧
        Writes lib text (.validator v) := by
    intro branch hbranch text hmap
    obtain ⟨position, e, he, rfl⟩ := hmap
    obtain ⟨-, v, hv, hmeans⟩ := ih branch hbranch (hsuits branch hbranch) _ e he
    exact ⟨v, hmeans, hv⟩
  obtain ⟨vs, hmeans, hwrites⟩ :=
    Steps.exists_between (Steps.forall₂_of_zipIdx (mapBranches_eq_ok.mp h)) hbetween
  refine ⟨?_, vs, hwrites, hmeans⟩
  rintro rfl
  cases hwrites
  cases hmeans
  exact hne rfl

/-- A union accepts absence where some branch does. -/
theorem Reading.waives_union {branches : List Node} {rules : List Rule} {nullable : Bool} :
    reading.waives ⟨.union branches, rules, nullable⟩ ↔ ∃ branch ∈ branches, reading.waives branch := by
  unfold waives
  rw [Node.acceptsAbsence, Schema.anyAcceptsAbsence_eq]
  cases reading.absence <;> simp

/-- An intersection of some branches accepts absence where every branch does. -/
theorem Reading.waives_intersection {branches : List Node} {rules : List Rule} {nullable : Bool}
    (hne : branches ≠ []) :
    reading.waives ⟨.intersection branches, rules, nullable⟩ ↔ ∀ branch ∈ branches, reading.waives branch := by
  unfold waives
  rw [Node.acceptsAbsence, Schema.allAcceptAbsence_eq]
  cases reading.absence with
  | true => simp
  | false =>
      obtain ⟨first, hfirst⟩ := List.exists_mem_of_ne_nil branches hne
      exact iff_of_false (by simp) fun hall => by simpa using hall first hfirst

/-! ### Objects -/

/-- The validator says of a member what the node does, and of a missing one whether it must be there. -/
structure Describes (lib : Library) (reading : Reading) (holds : Rule → Value → Prop) (required : List String)
    (name : String) (node : Node) (v : lib.Validator) : Prop where
  values : ∀ value, value.EachNumber reading.IsNumber →
    (lib.accepts v (.value value) ↔ reading.Accepts holds node value)
  missing : lib.accepts v (reading.missing name) ↔ name ∉ required ∨ reading.waives node
  isMember : reading.isMember name

/-- Every property has a validator under its own name. -/
theorem faithful_properties (hlib : lib.Documented reading holds) {required : List String}
    {properties : List (String × Node)} {entries : List (String × String)}
    (ih : ∀ property ∈ properties, Faithful lib reading holds property.2)
    (hbelow : ∀ property ∈ properties, property.2.Everywhere (reading.Suits lib.compiles))
    (hsuits : ∀ property ∈ properties, reading.isMember property.1 ∧
      (reading.isInherited property.1 → property.1 ∈ required ∨ reading.waives property.2))
    (h : mapProperties required path properties = .ok entries) :
    ∃ members : List (String × lib.Validator),
      Entries.Corresponds (fun text v => Writes lib text (.validator v)) entries members ∧
      List.Forall₂ (fun property member => member.1 = property.1 ∧
        Describes lib reading holds required property.1 property.2 member.2) properties members := by
  have hbetween : ∀ property ∈ properties, ∀ entry : String × String,
      (∃ e, mapNode property.2 (path.join property.1) = .ok e ∧
        entry = (property.1, (e.optional (property.1 ∉ required)).text)) →
      ∃ member : String × lib.Validator,
        (member.1 = property.1 ∧ Describes lib reading holds required property.1 property.2 member.2) ∧
        member.1 = entry.1 ∧ Writes lib entry.2 (.validator member.2) := by
    intro property hproperty entry hmap
    obtain ⟨e, he, rfl⟩ := hmap
    obtain ⟨hpresent, v, hv, hmeans⟩ := ih property hproperty (hbelow property hproperty) _ e he
    obtain ⟨hmember, hinherited⟩ := hsuits property hproperty
    obtain ⟨w, hw, haccepts⟩ := hv.optional hlib hpresent (property.1 ∉ required)
    refine ⟨(property.1, w), ⟨rfl, fun value hvalue => ?_, ?_, hmember⟩, rfl, hw⟩
    · rw [haccepts, hmeans.values value hvalue]
      simp
    · rw [haccepts]
      unfold Reading.missing
      by_cases hname : reading.isInherited property.1
      · rw [if_pos hname, hmeans.missing .inherited trivial]
        have := hinherited hname
        simp only [decide_eq_true_eq, reduceCtorEq, and_false, false_or]
        tauto
      · rw [if_neg hname, hmeans.missing .absent trivial]
        simp
  obtain ⟨members, hmeans, hwrites⟩ := Steps.exists_between (mapProperties_eq_ok.mp h) hbetween
  exact ⟨members, hwrites, hmeans⟩

theorem faithful_additional {additional : Option Node} {other : Option String}
    (ih : ∀ node ∈ additional, Faithful lib reading holds node)
    (hbelow : ∀ node ∈ additional, node.Everywhere (reading.Suits lib.compiles))
    (h : mapAdditional additional path = .ok other) :
    ∃ rest, Option.Rel (fun text v => Writes lib text (.validator v)) other rest ∧
      Option.Rel (fun node v => lib.Means reading v (reading.waives node) (reading.Accepts holds node))
        additional rest := by
  rcases mapAdditional_eq_ok.mp h with ⟨rfl, rfl⟩ | ⟨node, e, rfl, he, rfl⟩
  · exact ⟨none, .none, .none⟩
  · obtain ⟨-, v, hv, hmeans⟩ := ih node rfl (hbelow node rfl) _ e he
    exact ⟨some v, .some hv, .some hmeans⟩

section

variable {properties : List (String × Node)} {members : List (String × lib.Validator)} {required : List String}
  {additional : Option Node} {rest : Option lib.Validator} {closed : Bool} {given : List (String × Value)}
  (hproperties : List.Forall₂ (fun property member => member.1 = property.1 ∧
    Describes lib reading holds required property.1 property.2 member.2) properties members)
  (hrest : Option.Rel
    (fun node v => lib.Means reading v (reading.waives node) (reading.Accepts holds node)) additional rest)
  (hgiven : (Value.obj given).EachNumber reading.IsNumber)

include hproperties

theorem names_described : Entries.names (Entries.ofList members) = Entries.names (Entries.ofList properties) := by
  have hnames : Entries.names members = Entries.names properties := by
    induction hproperties with
    | nil => rfl
    | cons hfirst _ ih => rw [Entries.names_cons, Entries.names_cons, hfirst.1, ih]
  rw [Entries.names_ofList, Entries.names_ofList, hnames]

/-- Every property is described. -/
theorem exists_describing {name : String} {node : Node}
    (hnode : Entries.get? (Entries.ofList properties) name = some node) :
    ∃ v, Entries.get? (Entries.ofList members) name = some v ∧
      Describes lib reading holds required name node v := by
  have hname : name ∈ Entries.names (Entries.ofList members) := by
    rw [names_described hproperties]
    exact Entries.mem_names.mpr ⟨node, hnode⟩
  obtain ⟨v, hv⟩ := Entries.mem_names.mp hname
  obtain ⟨node', hnode', hdescribes⟩ := Entries.exists_of_get?_ofList hproperties hv
  rw [hnode] at hnode'
  cases hnode'
  exact ⟨v, hv, hdescribes⟩

/-- The described members are the properties. -/
theorem mem_described_iff {name : String} :
    name ∈ Entries.names (Entries.ofList members) ∧ reading.isMember name ↔
      name ∈ Entries.names (Entries.ofList properties) := by
  rw [names_described hproperties]
  refine and_iff_left_of_imp fun hname => ?_
  obtain ⟨node, hnode⟩ := Entries.mem_names.mp hname
  obtain ⟨v, -, hdescribes⟩ := exists_describing hproperties hnode
  exact hdescribes.isMember

/-- What is missing is accepted under the names that need not be there. -/
theorem accepts_missing_iff {name : String} {v : lib.Validator}
    (hv : Entries.get? (Entries.ofList members) name = some v) :
    lib.accepts v (reading.missing name) ↔ name ∉ remaining reading.waives properties required := by
  obtain ⟨node, hnode, hdescribes⟩ := Entries.exists_of_get?_ofList hproperties hv
  rw [hdescribes.missing, remaining, List.mem_filter, hnode, Option.any_some, Bool.not_eq_true',
    not_and_or, Bool.not_eq_false]

include hrest hgiven

/-- Members that fit their validators fit the object kind. -/
theorem membersFit_of_fits (h : Fits reading lib.accepts (Entries.ofList members) rest closed given) :
    MembersFit (reading.Accepts holds) (Entries.ofList properties) (remaining reading.waives properties required)
      additional closed given := by
  refine ⟨fun name hname hproperty => ?_, fun name node value hnode hvalue => ?_,
    fun name node value hname hvalue hnode => ?_, fun hclosed hnone name hname => ?_⟩
  · obtain ⟨node, hnode⟩ := Entries.mem_names.mp hproperty
    obtain ⟨v, hv, hdescribes⟩ := exists_describing hproperties hnode
    by_contra habsent
    have haccepts := h.described name v hv hdescribes.isMember
    rw [Reading.member, Entries.get?_eq_none.mpr habsent] at haccepts
    exact (accepts_missing_iff hproperties hv).mp haccepts hname
  · obtain ⟨v, hv, hdescribes⟩ := exists_describing hproperties hnode
    have haccepts := h.described name v hv hdescribes.isMember
    rw [Reading.member, hvalue] at haccepts
    exact (hdescribes.values value (hgiven.member hvalue)).mp haccepts
  · subst hnode
    cases hrest with
    | some hmeans =>
        have haccepts := h.other name value (by rwa [mem_described_iff hproperties]) hvalue _ rfl
        exact (hmeans.values value (hgiven.member hvalue)).mp haccepts
  · subst hnone
    cases hrest
    exact (mem_described_iff hproperties).mp (h.refused hclosed rfl name hname)

/-- Members that fit the object kind fit their validators. -/
theorem fits_of_membersFit (h : MembersFit (reading.Accepts holds) (Entries.ofList properties)
    (remaining reading.waives properties required) additional closed given) :
    Fits reading lib.accepts (Entries.ofList members) rest closed given := by
  refine ⟨fun name v hv hmember => ?_, fun name value hname hvalue v hv => ?_, fun hclosed hnone name hname => ?_⟩
  · obtain ⟨node, hnode, hdescribes⟩ := Entries.exists_of_get?_ofList hproperties hv
    unfold Reading.member
    cases hvalue : Entries.get? given name with
    | some value => exact (hdescribes.values value (hgiven.member hvalue)).mpr (h.known name node value hnode hvalue)
    | none =>
        refine (accepts_missing_iff hproperties hv).mpr fun hname => ?_
        exact Entries.get?_eq_none.mp hvalue (h.present name hname (Entries.mem_names.mpr ⟨node, hnode⟩))
  · rw [mem_described_iff hproperties] at hname
    cases hv
    cases hrest with
    | some hmeans =>
        exact (hmeans.values value (hgiven.member hvalue)).mpr (h.other name _ value hname hvalue rfl)
  · subst hnone
    cases hrest
    exact (mem_described_iff hproperties).mpr (h.refused hclosed rfl name hname)

end

/-- An object kind asks of members what its relaxed properties and required names ask. -/
theorem accepts_object_iff {properties : List (String × Node)} {required : List String} {additional : Option Node}
    {closed : Bool} {value : Value} :
    Kind.Accepts holds (Kind.relaxed reading.waives (.object properties required additional closed)) value ↔
      IsObject (MembersFit (reading.Accepts holds) (Entries.ofList properties)
        (remaining reading.waives properties required) additional closed) value := by
  rw [Kind.relaxed, Schema.Kind.accepts_object, relaxedProperties_eq, relaxedAdditional_eq, Entries.ofList_map]
  refine exists_congr fun given => and_congr_right fun _ => ?_
  refine MembersFit.congr ?_ (fun _ _ => Iff.rfl) (fun value => ?_) (and_congr_right fun _ => ?_)
  · rw [Entries.Corresponds, List.forall₂_map_left_iff, List.forall₂_same]
    exact fun _ _ => ⟨rfl, fun _ => Iff.rfl⟩
  · cases additional <;> simp [Reading.Accepts]
  · cases additional <;> simp

/-! ### Kinds and nodes -/

section

variable (hlib : lib.Documented reading holds)

include hlib

theorem renders_object {properties : List (String × Node)} {required : List String}
    {additional : Option Node} {closed : Bool}
    (ih : ∀ child ∈ (Kind.object properties required additional closed).children, Faithful lib reading holds child)
    (hbelow : ∀ child ∈ (Kind.object properties required additional closed).children,
      child.Everywhere (reading.Suits lib.compiles))
    (hsuits : reading.SuitsKind (.object properties required additional closed))
    (h : mapKind (.object properties required additional closed) path = .ok e) :
    Renders lib reading e (RulesOf none) False
      (Kind.Accepts holds (Kind.relaxed reading.waives (.object properties required additional closed))) := by
  obtain ⟨other, entries, hother, hentries, rfl⟩ := mapKind_object_eq_ok.mp h
  have hproperty : ∀ property ∈ properties,
      property.2 ∈ (Kind.object properties required additional closed).children := fun property hproperty =>
    List.mem_append_left _ (List.mem_map.mpr ⟨property, hproperty, rfl⟩)
  have hadditional : ∀ node ∈ additional,
      node ∈ (Kind.object properties required additional closed).children := fun node hnode =>
    List.mem_append_right _ (Option.mem_toList.mpr hnode)
  obtain ⟨members, hwrites, hdescribed⟩ := faithful_properties hlib (fun property h => ih _ (hproperty property h))
    (fun property h => hbelow _ (hproperty property h)) hsuits hentries
  obtain ⟨rest, hrest, hmeans⟩ := faithful_additional (fun node h => ih node (hadditional node h))
    (fun node h => hbelow node (hadditional node h)) hother
  have hobject := Renders.object hlib closed hwrites.ofList (Entries.nodup_names_ofList members) hrest
  refine hobject.congr fun value hvalue => ?_
  rw [accepts_object_iff]
  refine exists_congr fun given => and_congr_right fun hgiven => ?_
  rw [hgiven] at hvalue
  exact ⟨membersFit_of_fits hdescribed hmeans hvalue, fits_of_membersFit hdescribed hmeans hvalue⟩

/-- The expression of a kind accepts what the kind does, if those of its children do. -/
theorem renders_kind {kind : Kind} (ih : ∀ child ∈ kind.children, Faithful lib reading holds child)
    (hbelow : ∀ child ∈ kind.children, child.Everywhere (reading.Suits lib.compiles))
    (hsuits : reading.SuitsKind kind) (h : mapKind kind path = .ok e) :
    Renders lib reading e (RulesOf kind.subject?) (reading.waives kind.plain)
      (Kind.Accepts holds (kind.relaxed reading.waives)) := by
  have hnever : ∀ kind : Kind, kind.plain.acceptsAbsence = false → (reading.waives kind.plain : Prop) = False := by
    intro kind hkind
    simp [Reading.waives, hkind]
  cases kind with
  | string =>
      rw [mapKind] at h
      cases h
      rw [hnever _ rfl]
      exact (Renders.string hlib).congr fun value _ => Kind.accepts_string.symm
  | number =>
      rw [mapKind] at h
      cases h
      rw [hnever _ rfl]
      exact (Renders.number hlib).congr fun value _ => Kind.accepts_number.symm
  | integer =>
      rw [mapKind] at h
      cases h
      rw [hnever _ rfl]
      exact (Renders.integer hlib).congr fun value _ => Kind.accepts_integer.symm
  | boolean =>
      rw [mapKind] at h
      cases h
      rw [hnever _ rfl]
      exact (Renders.boolean hlib).congr fun value _ => Kind.accepts_boolean.symm
  | null =>
      rw [mapKind] at h
      cases h
      rw [hnever _ rfl]
      exact (Renders.null hlib).congr fun value _ => Kind.accepts_null.symm
  | any =>
      rw [mapKind] at h
      cases h
      have hwaives : reading.waives Kind.any.plain = reading.absence := by
        show (reading.absence && true) = _
        rw [Bool.and_true]
      rw [hwaives]
      exact (Renders.unknown hlib).congr fun value _ => iff_of_true trivial .any
  | object properties required additional closed =>
      rw [hnever _ rfl]
      exact renders_object hlib ih hbelow hsuits h
  | array items =>
      obtain ⟨element, helement, rfl⟩ := mapKind_array_eq_ok.mp h
      have hchild : items ∈ (Kind.array items).children := by simp [Kind.children]
      obtain ⟨-, v, hv, hmeans⟩ := ih items hchild (hbelow items hchild) _ element helement
      rw [hnever _ rfl]
      refine (Renders.array hlib hv).congr fun value hvalue => ?_
      rw [Kind.relaxed, Kind.accepts_array]
      refine exists_congr fun elements => and_congr_right fun helements => ?_
      rw [helements] at hvalue
      exact forall₂_congr fun item hitem => hmeans.values item (hvalue.item hitem)
  | enumeration values =>
      obtain ⟨hne, rfl⟩ := mapKind_enumeration_eq_ok.mp h
      rw [hnever _ rfl]
      exact (Renders.enumeration hlib hne hsuits).congr fun value _ => Kind.accepts_enumeration.symm
  | union branches =>
      obtain ⟨hne, texts, htexts, rfl⟩ := mapKind_union_eq_ok.mp h
      obtain ⟨hfilled, vs, hwrites, hmeans⟩ := faithful_branches ih hbelow hne htexts
      refine Renders.union hlib hwrites hfilled fun v hv => ⟨fun value hvalue => ?_, fun input hmissing => ?_⟩
      · rw [hv, Kind.relaxed, Kind.accepts_union, relaxedBranches_eq]
        simp only [List.mem_map, exists_exists_and_eq_and]
        exact Steps.exists_mem_iff hmeans fun branch w hw => hw.values value hvalue
      · rw [hv, Kind.plain, Reading.waives_union]
        exact Steps.exists_mem_iff hmeans fun branch w hw => hw.missing input hmissing
  | intersection branches =>
      obtain ⟨hne, texts, htexts, rfl⟩ := mapKind_intersection_eq_ok.mp h
      obtain ⟨hfilled, vs, hwrites, hmeans⟩ := faithful_branches ih hbelow hne htexts
      refine Renders.intersection hlib hwrites hfilled fun v hv => ⟨fun value hvalue => ?_, fun input hmissing => ?_⟩
      · rw [hv, Kind.relaxed, Kind.accepts_intersection, relaxedBranches_eq, List.forall_mem_map]
        exact Steps.forall_mem_iff hmeans fun branch w hw => hw.values value hvalue
      · rw [hv, Kind.plain, Reading.waives_intersection hne]
        exact Steps.forall_mem_iff hmeans fun branch w hw => hw.missing input hmissing

/-- **The expression of a node writes a validator for what the node accepts.** -/
theorem faithful (node : Node) : Faithful lib reading holds node := by
  induction node using Node.induction with
  | step node ih =>
      intro heverywhere path e h
      obtain ⟨start, hstart, happlies, rfl⟩ := mapNode_eq_ok.mp h
      have hsuits := heverywhere.self
      have hsubject : ∀ rule ∈ node.rules, RulesOf node.kind.subject? rule := by
        intro rule hrule
        have hrule_applies := happlies rule hrule
        rwa [Rule.appliesTo, beq_iff_eq] at hrule_applies
      have hkind := renders_kind hlib ih heverywhere.child hsuits.kind hstart
      have hrules := hkind.rules hlib hsubject hsuits.bounds hsuits.patterns
      obtain ⟨v, hv, hmeans⟩ := hrules.nullable hlib node.nullable
      have hwaives : reading.waives node.kind.plain = reading.waives node := by
        obtain ⟨kind, rules, nullable⟩ := node
        cases kind <;> rfl
      rw [hwaives] at hmeans
      refine ⟨hrules.bare.notOptional, v, hv, hmeans.congr fun value _ => ?_⟩
      rw [Reading.Accepts, Node.accepts_iff]
      cases node
      exact Iff.rfl

end

/-! ### By the letter -/

/-- The model of the library for the plain reading. -/
abbrev Library.plain (holds : Rule → Value → Prop) : Library :=
  .model .plain (fun _ => true) holds

/-- Every tree suits the plain reading. -/
theorem suits_plain (node : Node) : node.Everywhere (Reading.plain.Suits fun _ => true) := by
  induction node using Node.induction with
  | step node ih =>
      refine .intro ⟨?_, fun _ _ => rfl, List.pairwise_iff_forall_sublist.mpr fun _ => rfl⟩ ih
      cases node.kind with
      | object properties required additional closed => exact fun property _ => ⟨rfl, fun h => by cases h⟩
      | enumeration values => exact fun literal _ => .of_forall (fun _ => trivial) literal.toValue
      | _ => trivial

/-- The plain reading waives nothing, so a tree accepts what it accepts. -/
theorem accepts_plain (node : Node) : Reading.plain.Accepts holds node = node.Accepts holds := by
  have hwaives : Reading.plain.waives = fun _ => false := rfl
  rw [Reading.Accepts, hwaives, Node.relaxed_none]

/-- **By the letter, the expression of a node accepts what the node accepts.** -/
theorem faithful_plain (holds : Rule → Value → Prop) {node : Node} (h : mapNode node path = .ok e) :
    e.isOptional = false ∧ ∃ v, Writes (.plain holds) e.text (.validator v) ∧
      (Library.plain holds).Means .plain v False (node.Accepts holds) := by
  have hlib := Library.model_documented .plain (fun _ => true) holds
  obtain ⟨hpresent, v, hv, hmeans⟩ := faithful hlib node (suits_plain node) path e h
  have hnever : (Reading.plain.waives node : Prop) = False := by
    simp [Reading.waives, Reading.plain]
  rw [accepts_plain, hnever] at hmeans
  exact ⟨hpresent, v, hv, hmeans⟩

end ZodRoutes.Zod
