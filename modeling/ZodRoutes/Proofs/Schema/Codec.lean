/-
Reading a schema tree undoes writing it.

A tree is written as a record of records, and what is empty or absent is left out.  Reading puts it back: a
member that is not there stands for what it was left out for, and the members that are there are read in the
order in which they were written.  One thing reading does on its own: it takes a name twice only once.  So the
trees that come back as they were are those in which no object names a property twice or requires it twice, and
these are the only ones that reading gives.

Reading bounds its recursion by the depth of the value.  The value of a child is nested less deeply than that of
its parent, so the bound is enough all the way down.
-/
import ZodRoutes.Proofs.Entries
import ZodRoutes.Proofs.Schema.Tree
import ZodRoutes.Schema.Codec

namespace ZodRoutes.Schema

open Json (Value)

/-! ### Distinct names -/

/-- An object kind names no property twice and requires none twice: its properties are a map, and the names that
it requires a set. -/
def Kind.Distinct : Kind → Prop
  | .object properties required _ _ => (Entries.names properties).Nodup ∧ required.Nodup
  | _ => True

/-- The names of every object in the tree are distinct. -/
abbrev Node.Distinct (node : Node) : Prop :=
  node.Everywhere fun node => node.kind.Distinct

/-! ### Rules -/

theorem Format.ofRuleName?_ruleName (f : Format) : Format.ofRuleName? f.ruleName = some f := by
  cases f <;> rfl

/-- A rule with a content is read by the reader of its name. -/
theorem Rule.ofValue?_variant {name : String} (h : Format.ofRuleName? name = none) (content : Value) :
    Rule.ofValue? (Rule.variant name content) = Rule.ofContent? name content := by
  simp [Rule.ofValue?, Rule.variant, Value.variant?, Entries.get?_cons, Value.name?, h]

@[simp] theorem count?_countValue (n : Nat) : (Rule.countValue n).count? = some n := by
  simp [Rule.countValue, Value.count?, Json.Number.count?]

@[simp] theorem double?_boundValue (x : Decimal.Double) : (Rule.boundValue x).double? = some x := rfl

theorem Rule.ofValue?_toValue (rule : Rule) : Rule.ofValue? rule.toValue = some rule := by
  cases rule with
  | format f =>
      simp [Rule.toValue, Rule.ofValue?, Value.variant?, Entries.get?_cons, Value.name?,
        Format.ofRuleName?_ruleName, Value.isVoid]
  | _ =>
      rw [Rule.toValue, Rule.ofValue?_variant rfl]
      simp [Rule.ofContent?, Value.str?]

/-! ### Lists and members -/

theorem toItems_eq_map (nodes : List Node) : toItems nodes = nodes.map Node.toValue := by
  induction nodes with
  | nil => rw [toItems, List.map_nil]
  | cons node rest ih => rw [toItems, List.map_cons, ih]

theorem toMembers_eq_map (properties : List (String × Node)) :
    toMembers properties = properties.map fun entry => (entry.1, entry.2.toValue) := by
  induction properties with
  | nil => rw [toMembers, List.map_nil]
  | cons entry rest ih => rw [toMembers, List.map_cons, ih]

/-- A list is read back when every element is. -/
theorem Decode.list?_map {α : Type} {read : Value → Option α} {write : α → Value} {items : List α}
    (h : ∀ item ∈ items, read (write item) = some item) :
    Decode.list? read (.arr (items.map write)) = some items := by
  rw [Decode.list?, Value.arr?, Option.bind_some]
  exact Steps.mapM_map h

theorem Decode.properties?_toMembers {inner : Decode.Inner} {properties : List (String × Node)}
    (hdistinct : (Entries.names properties).Nodup)
    (hinner : ∀ entry ∈ properties, inner entry.2.toValue = some entry.2) :
    Decode.properties? inner (.obj (toMembers properties)) = some properties := by
  rw [toMembers_eq_map, Decode.properties?, Value.obj?, Option.bind_eq_bind, Option.bind_some, Option.bind_eq_bind,
    Steps.mapM_map ?_, Option.bind_some, Entries.ofList_of_nodup hdistinct]
  · rfl
  · intro entry hentry
    simp [hinner entry hentry]

/-! ### Kinds -/

namespace Decode

variable {inner : Inner} {name : String}

theorem optional?_toValue {node : Node} (h : inner node.toValue = some node) :
    optional? inner node.toValue = some (some node) := by
  unfold optional?
  split
  · next hnull =>
      cases node
      simp [Node.toValue] at hnull
  · rw [h]
    rfl

theorem objectKind?_toValue {properties : List (String × Node)} {required : List String} {additional : Option Node}
    {closed : Bool} (hinner : ∀ child ∈ (Kind.object properties required additional closed).children,
      inner child.toValue = some child)
    (hdistinct : (Kind.object properties required additional closed).Distinct) :
    objectKind? inner (.obj ([("properties", .obj (toMembers properties))] ++
      (if required.isEmpty then [] else [("required", .arr (required.map Value.str))]) ++
      additionalMember additional ++ [("strict", .bool closed)])) =
        some (.object properties required additional closed) := by
  have hproperties := properties?_toMembers hdistinct.1 fun entry hentry =>
    hinner entry.2 (List.mem_append_left _ (List.mem_map_of_mem hentry))
  have hrequired : list? Value.str? (.arr (required.map Value.str)) = some required :=
    list?_map fun _ _ => rfl
  have hadditional : ∀ node ∈ additional, optional? inner node.toValue = some (some node) := by
    intro node hnode
    exact optional?_toValue (hinner node (List.mem_append_right _ (Option.mem_toList.mpr hnode)))
  have hnames := Entries.distinct_of_nodup hdistinct.2
  -- A member is left out or there, which decides what is looked up under its name.
  cases required <;> cases additional <;>
    simp_all [objectKind?, Value.fields?, Entries.get?_cons, additionalMember, orDefault, Value.bool?]

/-- A kind with a content is read by the reader of its name. -/
theorem kind?_content (h : plainKind? name = none) (content : Value) :
    kind? inner (.obj [("type", .str name), ("value", content)]) = contentKind? inner name content := by
  simp [kind?, Value.variant?, Entries.get?_cons, Value.name?, h]

theorem kind?_plain {kind : Kind} (h : plainKind? name = some kind) :
    kind? inner (.obj [("type", .str name)]) = some kind := by
  simp [kind?, Value.variant?, Entries.get?_cons, Value.name?, h, Value.isVoid]

/-- A kind is read back when the nodes below it are. -/
theorem kind?_toValue {kind : Kind} (hinner : ∀ child ∈ kind.children, inner child.toValue = some child)
    (hdistinct : kind.Distinct) : kind? inner kind.toValue = some kind := by
  cases kind with
  | object properties required additional closed =>
      rw [Kind.toValue, kind?_content rfl]
      exact objectKind?_toValue hinner hdistinct
  | array items =>
      rw [Kind.toValue, kind?_content rfl]
      simp [contentKind?, hinner items (by simp [Kind.children])]
  | enumeration values =>
      rw [Kind.toValue, kind?_content rfl]
      simp [contentKind?, list?_map fun value _ => Literal.ofValue?_toValue value]
  | union branches =>
      rw [Kind.toValue, kind?_content rfl, toItems_eq_map]
      rw [contentKind?, list?_map (show ∀ branch ∈ branches, _ from hinner)]
      rfl
  | intersection branches =>
      rw [Kind.toValue, kind?_content rfl, toItems_eq_map]
      rw [contentKind?, list?_map (show ∀ branch ∈ branches, _ from hinner)]
      rfl
  | _ =>
      simp only [Kind.toValue]
      exact kind?_plain rfl

/-- A node is read back when its kind is. -/
theorem node?_toValue {node : Node} (h : kind? inner node.kind.toValue = some node.kind) :
    node? inner node.toValue = some node := by
  obtain ⟨kind, rules, nullable⟩ := node
  have hrules : list? Rule.ofValue? (.arr (rules.map Rule.toValue)) = some rules :=
    list?_map fun rule _ => rule.ofValue?_toValue
  rw [Node.toValue]
  cases rules <;> simp_all [node?, Value.fields?, Entries.get?_cons, orDefault, Value.bool?]

end Decode

/-! ### Depth -/

theorem depth_lt_of_member (name : String) {value : Value} {members : List (String × Value)}
    (h : (name, value) ∈ members) : value.depth < (Value.obj members).depth :=
  Nat.lt_succ_of_le (Value.depth_le_depthMembers h)

theorem depth_lt_of_item {value : Value} {items : List Value} (h : value ∈ items) :
    value.depth < (Value.arr items).depth :=
  Nat.lt_succ_of_le (Value.depth_le_depthList h)

theorem depth_content_lt (name : String) (content : Value) :
    content.depth < (Value.obj [("type", .str name), ("value", content)]).depth :=
  depth_lt_of_member "value" (by simp)

/-- The value of a kind is nested less deeply than that of its node. -/
theorem Node.depth_kind_lt (node : Node) : node.kind.toValue.depth < node.toValue.depth := by
  obtain ⟨kind, rules, nullable⟩ := node
  rw [Node.toValue]
  exact depth_lt_of_member "kind" (by simp)

/-- The value of a child is nested less deeply than that of the kind it is below. -/
theorem Kind.depth_child_lt {kind : Kind} {child : Node} (h : child ∈ kind.children) :
    child.toValue.depth < kind.toValue.depth := by
  cases kind with
  | object properties required additional closed =>
      rw [Kind.toValue]
      refine Nat.lt_trans ?_ (depth_content_lt _ _)
      rcases List.mem_append.mp h with hproperty | hadditional
      · obtain ⟨entry, hentry, rfl⟩ := List.mem_map.mp hproperty
        have hinside : (entry.1, entry.2.toValue) ∈ toMembers properties := by
          rw [toMembers_eq_map]
          exact List.mem_map.mpr ⟨entry, hentry, rfl⟩
        exact Nat.lt_trans (depth_lt_of_member _ hinside) (depth_lt_of_member "properties" (by simp))
      · rw [Option.mem_toList.mp hadditional]
        exact depth_lt_of_member "additional_properties" (by simp [additionalMember])
  | array items =>
      rw [List.mem_singleton.mp h, Kind.toValue]
      exact depth_content_lt _ _
  | union branches =>
      rw [Kind.toValue, toItems_eq_map]
      exact Nat.lt_trans (depth_lt_of_item (List.mem_map_of_mem (show child ∈ branches from h)))
        (depth_content_lt _ _)
  | intersection branches =>
      rw [Kind.toValue, toItems_eq_map]
      exact Nat.lt_trans (depth_lt_of_item (List.mem_map_of_mem (show child ∈ branches from h)))
        (depth_content_lt _ _)
  | _ => cases h

/-! ### Nodes -/

/-- A node is read back within any depth that its value keeps to. -/
theorem Decode.within?_toValue {node : Node} (h : node.Distinct) {depth : Nat} (hdepth : node.toValue.depth ≤ depth) :
    Decode.within? depth node.toValue = some node := by
  induction node using Node.induction generalizing depth with
  | step node ih =>
      have hkind := node.depth_kind_lt
      obtain ⟨bound, rfl⟩ : ∃ bound, depth = bound + 1 := ⟨depth - 1, by omega⟩
      rw [Decode.within?]
      refine Decode.node?_toValue (Decode.kind?_toValue (fun child hchild => ?_) h.self)
      have hbelow := Kind.depth_child_lt hchild
      exact ih child hchild (h.child child hchild) (by omega)

/-- **A tree comes back as it was written.** -/
theorem Node.ofValue?_toValue {node : Node} (h : node.Distinct) : Node.ofValue? node.toValue = some node :=
  Decode.within?_toValue h (Nat.le_refl _)

/-! ### Only such trees are read -/

namespace Decode

variable {inner : Inner} {value : Value}

/-- Every node that is read inside has distinct names. -/
def InnerDistinct (inner : Inner) : Prop :=
  ∀ value node, inner value = some node → node.Distinct

/-- What is read is the default or was there. -/
theorem of_orDefault {α : Type} (holds : α → Prop) {read : Value → Option α} {default result : α}
    {found : Option Value} (hdefault : holds default)
    (hread : ∀ value result, read value = some result → holds result)
    (h : orDefault read default found = some result) : holds result := by
  cases found with
  | none =>
      cases h
      exact hdefault
  | some value => exact hread value result h

/-- Every element of a list that is read was read. -/
theorem of_list? {α : Type} {read : Value → Option α} {holds : α → Prop} {results : List α}
    (hread : ∀ value result, read value = some result → holds result) (h : list? read value = some results) :
    ∀ result ∈ results, holds result := by
  obtain ⟨items, -, hitems⟩ := Option.bind_eq_some_iff.mp h
  rw [Steps.mapM_eq_some] at hitems
  intro result hresult
  obtain ⟨item, -, hitem⟩ := Steps.exists_of_mem_results hitems hresult
  exact hread item result hitem

theorem of_properties? (hinner : InnerDistinct inner) {properties : Entries Node}
    (h : properties? inner value = some properties) :
    (Entries.names properties).Nodup ∧ ∀ entry ∈ properties, entry.2.Distinct := by
  obtain ⟨members, -, h⟩ := Option.bind_eq_some_iff.mp h
  obtain ⟨nodes, hnodes, h⟩ := Option.bind_eq_some_iff.mp h
  obtain rfl := Option.some.inj h
  refine ⟨Entries.nodup_names_ofList nodes, fun entry hentry => ?_⟩
  rw [Steps.mapM_eq_some] at hnodes
  obtain ⟨member, -, hmember⟩ := Steps.exists_of_mem_results hnodes (Entries.mem_of_mem_ofList hentry)
  obtain ⟨node, hnode, rfl⟩ := Option.map_eq_some_iff.mp hmember
  exact hinner _ _ hnode

theorem of_optional? (hinner : InnerDistinct inner) {additional : Option Node}
    (h : optional? inner value = some additional) : ∀ node ∈ additional, node.Distinct := by
  intro node hnode
  unfold optional? at h
  split at h
  · cases h
    cases hnode
  · obtain ⟨read, hread, rfl⟩ := Option.map_eq_some_iff.mp h
    cases hnode
    exact hinner _ _ hread

theorem of_objectKind? (hinner : InnerDistinct inner) {kind : Kind} (h : objectKind? inner value = some kind) :
    kind.Distinct ∧ ∀ child ∈ kind.children, child.Distinct := by
  obtain ⟨fields, -, h⟩ := Option.bind_eq_some_iff.mp h
  split at h
  · obtain ⟨properties, hproperties, h⟩ := Option.bind_eq_some_iff.mp h
    obtain ⟨required, -, h⟩ := Option.bind_eq_some_iff.mp h
    obtain ⟨additional, hadditional, h⟩ := Option.bind_eq_some_iff.mp h
    obtain ⟨closed, -, h⟩ := Option.bind_eq_some_iff.mp h
    obtain rfl := Option.some.inj h
    obtain ⟨hnames, hentries⟩ := of_orDefault
      (fun properties => (Entries.names properties).Nodup ∧ ∀ entry ∈ properties, entry.2.Distinct) (by simp)
      (fun _ _ => of_properties? hinner) hproperties
    have hother := of_orDefault (fun additional => ∀ node ∈ additional, node.Distinct) (by simp)
      (fun _ _ => of_optional? hinner) hadditional
    refine ⟨⟨hnames, Entries.nodup_distinct required⟩, fun child hchild => ?_⟩
    rcases List.mem_append.mp hchild with hproperty | hadded
    · obtain ⟨entry, hentry, rfl⟩ := List.mem_map.mp hproperty
      exact hentries entry hentry
    · exact hother child (Option.mem_toList.mp hadded)
  · cases h

theorem of_contentKind? (hinner : InnerDistinct inner) {name : String} {kind : Kind}
    (h : contentKind? inner name value = some kind) : kind.Distinct ∧ ∀ child ∈ kind.children, child.Distinct := by
  unfold contentKind? at h
  split at h
  · exact of_objectKind? hinner h
  · obtain ⟨items, hitems, rfl⟩ := Option.map_eq_some_iff.mp h
    refine ⟨trivial, fun child hchild => ?_⟩
    rw [List.mem_singleton.mp hchild]
    exact hinner _ _ hitems
  · obtain ⟨values, -, rfl⟩ := Option.map_eq_some_iff.mp h
    exact ⟨trivial, nofun⟩
  · obtain ⟨branches, hbranches, rfl⟩ := Option.map_eq_some_iff.mp h
    exact ⟨trivial, of_list? hinner hbranches⟩
  · obtain ⟨branches, hbranches, rfl⟩ := Option.map_eq_some_iff.mp h
    exact ⟨trivial, of_list? hinner hbranches⟩
  · cases h

theorem of_plainKind? {name : String} {kind : Kind} (h : plainKind? name = some kind) :
    kind.Distinct ∧ ∀ child ∈ kind.children, child.Distinct := by
  unfold plainKind? at h
  split at h <;> cases h <;> exact ⟨trivial, nofun⟩

/-- Where the nodes inside are read with distinct names, so is the node. -/
theorem innerDistinct_node? (hinner : InnerDistinct inner) : InnerDistinct (node? inner) := by
  intro value node h
  obtain ⟨fields, -, h⟩ := Option.bind_eq_some_iff.mp h
  split at h
  · obtain ⟨kind, hkind, h⟩ := Option.bind_eq_some_iff.mp h
    obtain ⟨rules, -, h⟩ := Option.bind_eq_some_iff.mp h
    obtain ⟨nullable, -, h⟩ := Option.bind_eq_some_iff.mp h
    obtain rfl := Option.some.inj h
    obtain ⟨value, -, hkind⟩ := Option.bind_eq_some_iff.mp hkind
    obtain ⟨⟨name, content⟩, -, hkind⟩ := Option.bind_eq_some_iff.mp hkind
    have hread : kind.Distinct ∧ ∀ child ∈ kind.children, child.Distinct := by
      cases hplain : plainKind? name with
      | some plain =>
          simp only [hplain, Option.ite_none_right_eq_some, Option.some.injEq] at hkind
          exact hkind.2 ▸ of_plainKind? hplain
      | none =>
          simp only [hplain] at hkind
          obtain ⟨content, -, hcontent⟩ := Option.bind_eq_some_iff.mp hkind
          exact of_contentKind? hinner hcontent
    exact .intro hread.1 hread.2
  · cases h

theorem innerDistinct_within? (depth : Nat) : InnerDistinct (within? depth) := by
  induction depth with
  | zero => exact nofun
  | succ depth ih => exact innerDistinct_node? ih

end Decode

/-- **A tree is read from some value when its names are distinct, and only then.** -/
theorem Node.distinct_iff {node : Node} : node.Distinct ↔ ∃ value, Node.ofValue? value = some node :=
  ⟨fun h => ⟨node.toValue, Node.ofValue?_toValue h⟩, fun ⟨_, h⟩ => Decode.innerDistinct_within? _ _ _ h⟩

end ZodRoutes.Schema
