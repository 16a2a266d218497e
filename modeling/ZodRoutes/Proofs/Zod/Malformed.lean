/-
Which trees are refused, and where.

The mapping refuses a node for one of three reasons: a closed set without values, a composite without branches,
a rule that does not apply to the kind.  It looks at the children of a node before it looks at the rules on the
node itself and stops at the first fault, so what it reports is one fault of one node.

The place of that node is told by walking the tree.  A tree has no keywords of a document, so the branches of
every union are taken to be below `anyOf` and those of every intersection below `allOf`.  A tree whose objects
name no property twice has at most one node at a place.
-/
import ZodRoutes.Proofs.Json.Pointer
import ZodRoutes.Proofs.Schema.Codec
import ZodRoutes.Proofs.Zod.Mapping

namespace ZodRoutes.Schema

/-- A node shows a fault, whatever stands below it. -/
inductive Node.Malformed : Node → Fault → Prop
  | emptyEnum {rules : List Rule} {nullable : Bool} :
      Node.Malformed ⟨.enumeration [], rules, nullable⟩ .emptyEnum
  | emptyUnion {rules : List Rule} {nullable : Bool} :
      Node.Malformed ⟨.union [], rules, nullable⟩ (.emptyComposite "union")
  | emptyIntersection {rules : List Rule} {nullable : Bool} :
      Node.Malformed ⟨.intersection [], rules, nullable⟩ (.emptyComposite "intersection")
  | misplaced {node : Node} {rule : Rule} (mem : rule ∈ node.rules) (misfit : ¬ rule.appliesTo node.kind) :
      Node.Malformed node (.misplacedConstraint rule.keyword node.kind.name)

/-- Segments lead from the root of a tree to a node of it. -/
inductive Node.Leads : Node → List String → Node → Prop
  | here {node : Node} : Node.Leads node [] node
  | property {properties : List (String × Node)} {required : List String} {additional : Option Node}
      {closed nullable : Bool} {rules : List Rule} {name : String} {child target : Node} {rest : List String}
      (mem : (name, child) ∈ properties) (below : Node.Leads child rest target) :
      Node.Leads ⟨.object properties required additional closed, rules, nullable⟩
        ("properties" :: name :: rest) target
  | additional {properties : List (String × Node)} {required : List String} {closed nullable : Bool}
      {rules : List Rule} {child target : Node} {rest : List String} (below : Node.Leads child rest target) :
      Node.Leads ⟨.object properties required (some child) closed, rules, nullable⟩
        ("additionalProperties" :: rest) target
  | items {child target : Node} {rules : List Rule} {nullable : Bool} {rest : List String}
      (below : Node.Leads child rest target) :
      Node.Leads ⟨.array child, rules, nullable⟩ ("items" :: rest) target
  | anyOf {branches : List Node} {rules : List Rule} {nullable : Bool} {index : Nat} {child target : Node}
      {rest : List String} (branch : branches[index]? = some child) (below : Node.Leads child rest target) :
      Node.Leads ⟨.union branches, rules, nullable⟩ ("anyOf" :: toString index :: rest) target
  | allOf {branches : List Node} {rules : List Rule} {nullable : Bool} {index : Nat} {child target : Node}
      {rest : List String} (branch : branches[index]? = some child) (below : Node.Leads child rest target) :
      Node.Leads ⟨.intersection branches, rules, nullable⟩ ("allOf" :: toString index :: rest) target

variable {node child target other : Node} {segments : List String} {holds : Node → Prop}

/-- A node is proper when it shows no fault. -/
theorem Node.proper_iff : node.Proper ↔ ∀ fault, ¬ node.Malformed fault := by
  constructor
  · intro h fault hfault
    cases hfault with
    | emptyEnum | emptyUnion | emptyIntersection => exact h.filled rfl
    | misplaced mem misfit => exact misfit (h.applies _ mem)
  · intro h
    refine ⟨?_, fun rule hrule => by_contra fun hmisfit => h _ (.misplaced hrule hmisfit)⟩
    obtain ⟨kind, rules, nullable⟩ := node
    cases kind with
    | enumeration values =>
        rintro rfl
        exact h _ .emptyEnum
    | union branches =>
        rintro rfl
        exact h _ .emptyUnion
    | intersection branches =>
        rintro rfl
        exact h _ .emptyIntersection
    | _ => trivial

/-- Segments lead to every child, and on from there. -/
theorem Node.leads_of_mem_children (h : child ∈ node.kind.children) :
    ∃ steps, ∀ rest target, child.Leads rest target → node.Leads (steps ++ rest) target := by
  obtain ⟨kind, rules, nullable⟩ := node
  cases kind with
  | object properties required additional closed =>
      rcases List.mem_append.mp h with hproperty | hother
      · obtain ⟨⟨name, _⟩, hmem, rfl⟩ := List.mem_map.mp hproperty
        exact ⟨["properties", name], fun rest target hbelow => .property hmem hbelow⟩
      · obtain rfl := Option.mem_toList.mp hother
        exact ⟨["additionalProperties"], fun rest target hbelow => .additional hbelow⟩
  | array items =>
      obtain rfl := List.mem_singleton.mp h
      exact ⟨["items"], fun rest target hbelow => .items hbelow⟩
  | union branches =>
      obtain ⟨index, hindex⟩ := List.mem_iff_getElem?.mp h
      exact ⟨["anyOf", toString index], fun rest target hbelow => .anyOf hindex hbelow⟩
  | intersection branches =>
      obtain ⟨index, hindex⟩ := List.mem_iff_getElem?.mp h
      exact ⟨["allOf", toString index], fun rest target hbelow => .allOf hindex hbelow⟩
  | _ => simp [Kind.children] at h

theorem Node.Leads.everywhere (h : node.Leads segments target) (hall : node.Everywhere holds) :
    target.Everywhere holds := by
  induction h with
  | here => exact hall
  | property mem _ ih => exact ih (hall.child _ (List.mem_append_left _ (List.mem_map.mpr ⟨_, mem, rfl⟩)))
  | additional _ ih => exact ih (hall.child _ (List.mem_append_right _ (by simp)))
  | items _ ih => exact ih (hall.child _ List.mem_cons_self)
  | anyOf branch _ ih | allOf branch _ ih => exact ih (hall.child _ (List.mem_of_getElem? branch))

/-- **Every node of a tree is led to.** -/
theorem Node.everywhere_iff_leads :
    node.Everywhere holds ↔ ∀ segments target, node.Leads segments target → holds target := by
  constructor
  · exact fun h segments target hleads => (hleads.everywhere h).self
  · intro h
    induction node using Node.induction with
    | step node ih =>
        refine .intro (h _ _ .here) fun child hchild => ih child hchild fun rest target hleads => ?_
        obtain ⟨steps, hsteps⟩ := Node.leads_of_mem_children hchild
        exact h _ _ (hsteps rest target hleads)

/-- **Where names are distinct, segments lead to one node at most.** -/
theorem Node.Leads.unique (h : node.Leads segments target) (hdistinct : node.Distinct)
    (hother : node.Leads segments other) : other = target := by
  induction h with
  | here =>
      cases hother
      rfl
  | @property _ _ _ _ _ _ name _ _ rest mem _ ih =>
      generalize hsegments : "properties" :: name :: rest = segments at hother
      cases hother with
      | property mem' below' =>
          cases hsegments
          have hnames := hdistinct.self.1
          cases (Entries.get?_of_mem hnames mem).symm.trans (Entries.get?_of_mem hnames mem')
          exact ih (hdistinct.child _ (List.mem_append_left _ (List.mem_map.mpr ⟨_, mem, rfl⟩))) below'
      | _ => simp at hsegments
  | @additional _ _ _ _ _ _ _ rest _ ih =>
      generalize hsegments : "additionalProperties" :: rest = segments at hother
      cases hother with
      | additional below' =>
          cases hsegments
          exact ih (hdistinct.child _ (List.mem_append_right _ (by simp))) below'
      | _ => simp at hsegments
  | items _ ih =>
      cases hother with
      | items below' => exact ih (hdistinct.child _ List.mem_cons_self) below'
  | @anyOf _ _ _ index _ _ rest branch _ ih =>
      generalize hsegments : "anyOf" :: toString index :: rest = segments at hother
      cases hother with
      | anyOf branch' below' =>
          simp only [List.cons.injEq, true_and] at hsegments
          obtain ⟨hindex, rfl⟩ := hsegments
          obtain rfl := Json.Value.toString_index_inj hindex
          cases branch.symm.trans branch'
          exact ih (hdistinct.child _ (List.mem_of_getElem? branch)) below'
      | _ => simp at hsegments
  | @allOf _ _ _ index _ _ rest branch _ ih =>
      generalize hsegments : "allOf" :: toString index :: rest = segments at hother
      cases hother with
      | allOf branch' below' =>
          simp only [List.cons.injEq, true_and] at hsegments
          obtain ⟨hindex, rfl⟩ := hsegments
          obtain rfl := Json.Value.toString_index_inj hindex
          cases branch.symm.trans branch'
          exact ih (hdistinct.child _ (List.mem_of_getElem? branch)) below'
      | _ => simp at hsegments

end ZodRoutes.Schema

namespace ZodRoutes.Zod

open Schema (Fault Kind Node Path Rule SchemaError)
open Steps (FailsOnly exists_of_mem_results)

variable {kind : Kind} {node child : Node} {path : Path} {e : Expr} {rules : List Rule}
  {nullable : Bool}

/-! ### What has an expression -/

theorem proper_of_mapBranches {keyword : String} {index : Nat} {branches : List Node} {texts : List String}
    (ih : ∀ branch ∈ branches, ∀ path e, mapNode branch path = .ok e → branch.Everywhere Node.Proper)
    (h : mapBranches keyword path index branches = .ok texts) :
    ∀ branch ∈ branches, branch.Everywhere Node.Proper := by
  intro branch hbranch
  have hmapped := Steps.forall₂_of_zipIdx (mapBranches_eq_ok.mp h)
  obtain ⟨text, -, position, e, he, -⟩ := exists_of_mem_results hmapped.flip hbranch
  exact ih branch hbranch _ e he

/-- A kind that has an expression is filled, and proper below. -/
theorem proper_of_mapKind (ih : ∀ child ∈ kind.children, ∀ path e, mapNode child path = .ok e →
    child.Everywhere Node.Proper) (h : mapKind kind path = .ok e) : kind.Proper := by
  cases kind with
  | object properties required additional closed =>
      obtain ⟨other, entries, hother, hentries, -⟩ := mapKind_object_eq_ok.mp h
      refine ⟨trivial, fun child hchild => ?_⟩
      rcases List.mem_append.mp hchild with hproperty | hadditional
      · obtain ⟨property, hmem, rfl⟩ := List.mem_map.mp hproperty
        obtain ⟨entry, -, e, he, -⟩ := exists_of_mem_results (mapProperties_eq_ok.mp hentries).flip hmem
        exact ih _ hchild _ e he
      · rw [Option.mem_toList.mp hadditional] at hother
        rcases mapAdditional_eq_ok.mp hother with ⟨habsurd, -⟩ | ⟨node, e, hnode, he, -⟩
        · cases habsurd
        · cases hnode
          exact ih _ hchild _ e he
  | array items =>
      obtain ⟨element, helement, -⟩ := mapKind_array_eq_ok.mp h
      refine ⟨trivial, fun child hchild => ?_⟩
      rw [List.mem_singleton.mp hchild]
      exact ih items List.mem_cons_self _ element helement
  | enumeration values => exact ⟨(mapKind_enumeration_eq_ok.mp h).1, by simp [Kind.children]⟩
  | union branches =>
      obtain ⟨hfilled, texts, htexts, -⟩ := mapKind_union_eq_ok.mp h
      exact ⟨hfilled, proper_of_mapBranches ih htexts⟩
  | intersection branches =>
      obtain ⟨hfilled, texts, htexts, -⟩ := mapKind_intersection_eq_ok.mp h
      exact ⟨hfilled, proper_of_mapBranches ih htexts⟩
  | _ => exact ⟨trivial, by simp [Kind.children]⟩

/-- **Only trees that are proper at every depth have an expression.** -/
theorem proper_of_mapNode (h : mapNode node path = .ok e) : node.Everywhere Node.Proper := by
  induction node using Node.induction generalizing path e with
  | step node ih =>
      obtain ⟨base, hbase, happlies, -⟩ := mapNode_eq_ok.mp h
      have hkind := proper_of_mapKind (fun child hchild path e => ih child hchild) hbase
      exact .intro ⟨hkind.filled, happlies⟩ hkind.below

/-! ### What is reported -/

/-- An error is about a node of the tree at its place, which shows the fault. -/
def BlamedIn (node : Node) (path : Path) (error : SchemaError) : Prop :=
  ∃ segments target, error.path.segments = path.segments ++ segments ∧ node.Leads segments target ∧
    target.Malformed error.fault

/-- A fault of the node itself is reported at its own place. -/
theorem blamedIn_here {fault : Fault} (h : node.Malformed fault) : BlamedIn node path ⟨path, fault⟩ :=
  ⟨[], node, (List.append_nil _).symm, .here, h⟩

/-- What is reported of a child is reported of the parent, some segments further up. -/
theorem BlamedIn.above {place : Path} {error : SchemaError} (h : BlamedIn child place error)
    (steps : List String) (hplace : place.segments = path.segments ++ steps)
    (hsteps : ∀ rest target, child.Leads rest target → node.Leads (steps ++ rest) target) :
    BlamedIn node path error := by
  obtain ⟨segments, target, hsegments, hleads, hfault⟩ := h
  refine ⟨steps ++ segments, target, ?_, hsteps _ _ hleads, hfault⟩
  rw [hsegments, hplace, List.append_assoc]

/-- Wherever the node stands, errors about it are about a node of its tree. -/
def FailsInside (node : Node) : Prop :=
  ∀ path, FailsOnly (BlamedIn node path) (mapNode node path)

theorem withRules_failsOnly {start : Expr} :
    FailsOnly (fun error => error.path = path ∧ ∃ rule ∈ rules, ¬ rule.appliesTo kind ∧
      error.fault = .misplacedConstraint rule.keyword kind.name) (withRules kind path rules start) := by
  induction rules generalizing start with
  | nil => exact FailsOnly.ok _
  | cons rule rest ih =>
      rw [withRules]
      by_cases happlies : rule.appliesTo kind
      · rw [if_pos happlies]
        refine ih.imp fun error herror => ⟨herror.1, ?_⟩
        obtain ⟨other, hother, hmisfit⟩ := herror.2
        exact ⟨other, List.mem_cons_of_mem _ hother, hmisfit⟩
      · rw [if_neg happlies]
        exact FailsOnly.error ⟨rfl, rule, List.mem_cons_self, happlies, rfl⟩

theorem mapAdditional_failsOnly {p : SchemaError → Prop} {additional : Option Node}
    (h : ∀ node ∈ additional, FailsOnly p (mapNode node (path.join "additionalProperties"))) :
    FailsOnly p (mapAdditional additional path) := by
  cases additional with
  | none => exact FailsOnly.ok _
  | some node =>
      rw [mapAdditional]
      exact (h node rfl).map

theorem mapProperties_failsOnly {p : SchemaError → Prop} {required : List String}
    {properties : List (String × Node)}
    (h : ∀ property ∈ properties, FailsOnly p (mapNode property.2 (path.join property.1))) :
    FailsOnly p (mapProperties required path properties) := by
  induction properties with
  | nil =>
      rw [mapProperties]
      exact FailsOnly.ok _
  | cons property rest ih =>
      obtain ⟨hfirst, hrest⟩ := List.forall_mem_cons.mp h
      rw [mapProperties]
      exact hfirst.bind fun _ _ => (ih hrest).map

theorem mapBranches_failsOnly {p : SchemaError → Prop} {keyword : String} {branches : List Node} {start : Nat}
    (h : ∀ index branch, branches[index]? = some branch →
      FailsOnly p (mapNode branch (path.joinIndex keyword (start + index)))) :
    FailsOnly p (mapBranches keyword path start branches) := by
  induction branches generalizing start with
  | nil =>
      rw [mapBranches]
      exact FailsOnly.ok _
  | cons branch rest ih =>
      rw [mapBranches]
      refine (h 0 branch rfl).bind fun _ _ => (ih fun index other hother => ?_).map
      have hshifted := h (index + 1) other hother
      rwa [← Nat.add_assoc, Nat.add_right_comm] at hshifted

/-- Branches are looked at each below its index. -/
theorem mapBranches_failsInside {keyword : String} {branches : List Node}
    (ih : ∀ branch ∈ branches, FailsInside branch)
    (hleads : ∀ (index : Nat) (branch : Node), branches[index]? = some branch → ∀ rest target,
      branch.Leads rest target → node.Leads (keyword :: toString index :: rest) target) :
    FailsOnly (BlamedIn node path) (mapBranches keyword path 0 branches) := by
  refine mapBranches_failsOnly fun index branch hbranch => ?_
  refine (ih branch (List.mem_of_getElem? hbranch) _).imp fun error h => ?_
  refine h.above [keyword, toString index] ?_ (hleads index branch hbranch)
  simp [Path.joinIndex, Path.join]

/-- The children of a kind are looked at each at its own place. -/
theorem mapKind_failsOnly (ih : ∀ child ∈ kind.children, FailsInside child) :
    FailsOnly (BlamedIn ⟨kind, rules, nullable⟩ path) (mapKind kind path) := by
  cases kind with
  | object properties required additional closed =>
      rw [mapKind]
      refine FailsOnly.bind (mapAdditional_failsOnly fun child hchild => ?_) fun _ _ =>
        FailsOnly.map (mapProperties_failsOnly fun property hproperty => ?_)
      · have hinside := ih child (List.mem_append_right _ (Option.mem_toList.mpr hchild))
        obtain rfl := hchild
        exact (hinside _).imp fun error h => h.above ["additionalProperties"] rfl fun _ _ => .additional
      · have hinside := ih property.2 (List.mem_append_left _ (List.mem_map.mpr ⟨property, hproperty, rfl⟩))
        refine (hinside _).imp fun error h => h.above ["properties", property.1] ?_ fun _ _ => .property hproperty
        exact List.append_assoc ..
  | array items =>
      rw [mapKind]
      refine FailsOnly.map ((ih items List.mem_cons_self _).imp fun error h => ?_)
      exact h.above ["items"] rfl fun _ _ => .items
  | enumeration values =>
      rw [mapKind]
      cases values with
      | nil => exact FailsOnly.error (blamedIn_here .emptyEnum)
      | cons first rest => exact FailsOnly.ok _
  | union branches =>
      rw [mapKind]
      cases branches with
      | nil => exact FailsOnly.error (blamedIn_here .emptyUnion)
      | cons first rest => exact (mapBranches_failsInside ih fun _ _ hbranch _ _ => .anyOf hbranch).map
  | intersection branches =>
      rw [mapKind]
      cases branches with
      | nil => exact FailsOnly.error (blamedIn_here .emptyIntersection)
      | cons first rest => exact (mapBranches_failsInside ih fun _ _ hbranch _ _ => .allOf hbranch).map
  | _ =>
      rw [mapKind]
      exact FailsOnly.ok _

/-- **Every error is about a node of the tree.** -/
theorem failsInside (node : Node) : FailsInside node := by
  induction node using Node.induction with
  | step node ih =>
      obtain ⟨kind, rules, nullable⟩ := node
      intro path
      rw [mapNode]
      refine FailsOnly.bind (mapKind_failsOnly ih) fun base _ => FailsOnly.map (withRules_failsOnly.imp ?_)
      rintro ⟨_, _⟩ ⟨rfl, rule, hrule, hmisfit, rfl⟩
      have hfault : (⟨kind, rules, nullable⟩ : Node).Malformed (.misplacedConstraint rule.keyword kind.name) :=
        .misplaced hrule hmisfit
      exact blamedIn_here hfault

/-! ### Both together -/

/-- **A tree is refused exactly for its malformed nodes.**  It has an expression when no node of it is malformed;
otherwise the error names a place of the tree at which a node shows the fault, and where names are distinct this is
the only node at that place. -/
theorem mapNode_refuses_malformed (node : Node) (path : Path) :
    ((∃ e, mapNode node path = .ok e) ↔
        ∀ segments target, node.Leads segments target → ∀ fault, ¬ target.Malformed fault) ∧
      ∀ error, mapNode node path = .error error →
        ∃ segments target, error.path.segments = path.segments ++ segments ∧ node.Leads segments target ∧
          target.Malformed error.fault ∧
          (node.Distinct → ∀ other, node.Leads segments other → other = target) := by
  constructor
  · simp only [← Node.proper_iff, ← Node.everywhere_iff_leads]
    constructor
    · intro h
      obtain ⟨e, he⟩ := h
      exact proper_of_mapNode he
    · exact fun h => hasExpr_of_proper h path
  · intro error herror
    obtain ⟨segments, target, hsegments, hleads, hfault⟩ := failsInside node path error herror
    exact ⟨segments, target, hsegments, hleads, hfault, fun hdistinct other => hleads.unique hdistinct⟩

/-- A record of lists of texts or truth values, with this rule on the latter. -/
def recordOfLists (rules : List Rule) : Node :=
  (Kind.object [] [] (some (Kind.array (Kind.union [Kind.string.plain, ⟨.boolean, rules, false⟩]).plain).plain)
    false).plain

/-- The place of the truth values, of which a length is asked. -/
def lengthOfTruth : SchemaError :=
  ⟨⟨["start", "additionalProperties", "items", "anyOf", "1"]⟩, .misplacedConstraint "minLength" "boolean"⟩

theorem mapNode_refuses_malformed_record :
    (∀ segments target, (recordOfLists []).Leads segments target → ∀ fault, ¬ target.Malformed fault) ∧
      mapNode (recordOfLists [.minLength 1]) ⟨["start"]⟩ = .error lengthOfTruth ∧
      ∃ target, (recordOfLists [.minLength 1]).Leads ["additionalProperties", "items", "anyOf", "1"] target ∧
        target.Malformed (.misplacedConstraint "minLength" "boolean") := by
  have herror : mapNode (recordOfLists [.minLength 1]) ⟨["start"]⟩ = .error lengthOfTruth := rfl
  refine ⟨(mapNode_refuses_malformed (recordOfLists []) .root).1.mp ⟨_, rfl⟩, herror, ?_⟩
  obtain ⟨segments, target, hsegments, hleads, hfault, -⟩ := (mapNode_refuses_malformed _ _).2 _ herror
  cases hsegments
  exact ⟨target, hleads, hfault⟩

end ZodRoutes.Zod
