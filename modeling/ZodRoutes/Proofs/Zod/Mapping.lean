/-
When a tree has an expression.

The mapping goes down the tree, and each lemma here says when one of its steps succeeds and with what.
Taken together they show that the three reasons for refusing a tree are exactly what a proper tree does
not show, so every proper tree has an expression.

The place of a tree is told for its errors only, so a tree has the same expression at every place.
-/
import ZodRoutes.Proofs.Schema.Placeless
import ZodRoutes.Proofs.Schema.Proper
import ZodRoutes.Zod.Mapping

namespace ZodRoutes.Zod

open Schema (Kind Node Path Placeless Rule SchemaError)
open Schema.Placeless (of_const)
open Steps (bind_eq_ok pure_eq_ok exists_results)

variable {kind : Kind} {node : Node} {path : Path} {e : Expr}

/-- All calls are chained when all rules apply. -/
theorem withRules_eq_ok {rules : List Rule} {start : Expr} :
    withRules kind path rules start = .ok e ↔
      (∀ rule ∈ rules, rule.appliesTo kind) ∧ e = rules.foldl Expr.rule start := by
  induction rules generalizing start with
  | nil =>
      rw [withRules, Except.ok.injEq, List.foldl_nil]
      exact ⟨fun h => ⟨by simp, h.symm⟩, fun h => h.2.symm⟩
  | cons rule rest ih =>
      rw [withRules, List.forall_mem_cons, List.foldl_cons, and_assoc]
      by_cases happlies : rule.appliesTo kind
      · rw [if_pos happlies, ih]
        simp only [happlies, true_and]
      · rw [if_neg happlies]
        simp [happlies, Path.fails]

/-- A node has the expression of its kind, with its rules chained, and null beside it. -/
theorem mapNode_eq_ok :
    mapNode node path = .ok e ↔
      ∃ base, mapKind node.kind path = .ok base ∧ (∀ rule ∈ node.rules, rule.appliesTo node.kind) ∧
        e = (node.rules.foldl Expr.rule base).nullable node.nullable := by
  obtain ⟨kind, rules, nullable⟩ := node
  rw [mapNode]
  simp only [bind_eq_ok, pure_eq_ok, withRules_eq_ok]
  constructor
  · rintro ⟨base, hbase, _, ⟨happlies, rfl⟩, rfl⟩
    exact ⟨base, hbase, happlies, rfl⟩
  · rintro ⟨base, hbase, happlies, rfl⟩
    exact ⟨base, hbase, _, ⟨happlies, rfl⟩, rfl⟩

theorem mapAdditional_eq_ok {additional : Option Node} {text : Option String} :
    mapAdditional additional path = .ok text ↔
      (additional = none ∧ text = none) ∨
        ∃ node e, additional = some node ∧ mapNode node (path.join "additionalProperties") = .ok e ∧
          text = some e.text := by
  cases additional with
  | none => simp [mapAdditional, eq_comm]
  | some node =>
      rw [mapAdditional]
      simp only [bind_eq_ok, pure_eq_ok]
      simp [eq_comm]

/-- Every property has its expression under its own name, optional unless it is required. -/
theorem mapProperties_eq_ok {required : List String} {properties : List (String × Node)}
    {entries : List (String × String)} :
    mapProperties required path properties = .ok entries ↔
      List.Forall₂ (fun property entry => ∃ e, mapNode property.2 (path.join property.1) = .ok e ∧
        entry = (property.1, (e.optional (property.1 ∉ required)).text)) properties entries := by
  induction properties generalizing entries with
  | nil => cases entries <;> simp [mapProperties]
  | cons property rest ih =>
      rw [mapProperties, List.forall₂_cons_left_iff]
      simp only [bind_eq_ok, pure_eq_ok, ih]
      constructor
      · rintro ⟨e, he, others, hothers, rfl⟩
        exact ⟨_, others, ⟨e, he, rfl⟩, hothers, rfl⟩
      · rintro ⟨_, others, ⟨e, he, rfl⟩, hothers, rfl⟩
        exact ⟨e, he, others, hothers, rfl⟩

/-- Every branch has its expression, in order. -/
theorem mapBranches_eq_ok {keyword : String} {branches : List Node} {texts : List String} :
    ∀ {index : Nat}, mapBranches keyword path index branches = .ok texts ↔
      List.Forall₂ (fun branch text => ∃ e,
        mapNode branch.1 (path.joinIndex keyword branch.2) = .ok e ∧ text = e.text)
        (branches.zipIdx index) texts := by
  induction branches generalizing texts with
  | nil => cases texts <;> simp [mapBranches]
  | cons branch rest ih =>
      intro index
      rw [mapBranches, List.zipIdx_cons, List.forall₂_cons_left_iff]
      simp only [bind_eq_ok, pure_eq_ok, ih]
      constructor
      · rintro ⟨e, he, others, hothers, rfl⟩
        exact ⟨_, others, ⟨e, he, rfl⟩, hothers, rfl⟩
      · rintro ⟨_, others, ⟨e, he, rfl⟩, hothers, rfl⟩
        exact ⟨e, he, others, hothers, rfl⟩

theorem mapKind_object_eq_ok {properties : List (String × Node)} {required : List String}
    {additional : Option Node} {closed : Bool} :
    mapKind (.object properties required additional closed) path = .ok e ↔
      ∃ other entries, mapAdditional additional path = .ok other ∧
        mapProperties required (path.join "properties") properties = .ok entries ∧
        e = objectExpr (Entries.ofList entries) other closed := by
  rw [mapKind]
  simp only [bind_eq_ok, pure_eq_ok]
  constructor
  · rintro ⟨other, hother, entries, hentries, rfl⟩
    exact ⟨other, entries, hother, hentries, rfl⟩
  · rintro ⟨other, entries, hother, hentries, rfl⟩
    exact ⟨other, hother, entries, hentries, rfl⟩

theorem mapKind_array_eq_ok {items : Node} :
    mapKind (.array items) path = .ok e ↔
      ∃ element, mapNode items (path.join "items") = .ok element ∧ e = Expr.array element.text := by
  rw [mapKind]
  simp only [bind_eq_ok, pure_eq_ok]
  exact exists_congr fun _ => and_congr_right fun _ => eq_comm

theorem mapKind_enumeration_eq_ok {values : List Schema.Literal} :
    mapKind (.enumeration values) path = .ok e ↔ values ≠ [] ∧ e = Expr.enumeration values := by
  rw [mapKind]
  cases values <;> simp [Path.fails, eq_comm]

theorem mapKind_union_eq_ok {branches : List Node} :
    mapKind (.union branches) path = .ok e ↔
      branches ≠ [] ∧ ∃ texts, mapBranches "anyOf" path 0 branches = .ok texts ∧ e = Expr.union texts := by
  rw [mapKind]
  cases branches with
  | nil => simp [Path.fails]
  | cons first rest =>
      simp only [List.isEmpty_cons, Bool.false_eq_true, if_false, bind_eq_ok, pure_eq_ok]
      simp [eq_comm]

theorem mapKind_intersection_eq_ok {branches : List Node} :
    mapKind (.intersection branches) path = .ok e ↔
      branches ≠ [] ∧
        ∃ texts, mapBranches "allOf" path 0 branches = .ok texts ∧ e = Expr.intersection texts := by
  rw [mapKind]
  cases branches with
  | nil => simp [Path.fails]
  | cons first rest =>
      simp only [List.isEmpty_cons, Bool.false_eq_true, if_false, bind_eq_ok, pure_eq_ok]
      simp [eq_comm]

/-! ### Proper trees -/

/-- A node has an expression at every place. -/
def HasExpr (node : Node) : Prop :=
  ∀ path, ∃ e, mapNode node path = .ok e

theorem mapBranches_ok (branches : List Node) (h : ∀ branch ∈ branches, HasExpr branch)
    (keyword : String) (path : Path) (index : Nat) :
    ∃ texts, mapBranches keyword path index branches = .ok texts := by
  simp only [mapBranches_eq_ok]
  refine exists_results ?_
  rintro ⟨branch, position⟩ hbranch
  have hmem : branch ∈ branches := List.fst_mem_of_mem_zipIdx hbranch
  obtain ⟨e, he⟩ := h branch hmem (path.joinIndex keyword position)
  exact ⟨e.text, e, he, rfl⟩

/-- A filled kind has an expression when everything below it has. -/
theorem mapKind_ok (hfilled : kind.Filled) (h : ∀ child ∈ kind.children, HasExpr child) (path : Path) :
    ∃ e, mapKind kind path = .ok e := by
  cases kind with
  | object properties required additional closed =>
      have hother : ∃ other, mapAdditional additional path = .ok other := by
        cases additional with
        | none => exact ⟨none, rfl⟩
        | some node =>
            obtain ⟨e, he⟩ := h node (by simp [Kind.children]) (path.join "additionalProperties")
            exact ⟨some e.text, mapAdditional_eq_ok.mpr (.inr ⟨node, e, rfl, he, rfl⟩)⟩
      have hentries : ∃ entries, mapProperties required (path.join "properties") properties = .ok entries := by
        simp only [mapProperties_eq_ok]
        refine exists_results fun property hproperty => ?_
        have hchild : property.2 ∈ (Kind.object properties required additional closed).children :=
          List.mem_append_left _ (List.mem_map.mpr ⟨property, hproperty, rfl⟩)
        obtain ⟨e, he⟩ := h property.2 hchild _
        exact ⟨_, e, he, rfl⟩
      obtain ⟨other, hother⟩ := hother
      obtain ⟨entries, hentries⟩ := hentries
      exact ⟨_, mapKind_object_eq_ok.mpr ⟨other, entries, hother, hentries, rfl⟩⟩
  | array items =>
      obtain ⟨element, helement⟩ := h items (by simp [Kind.children]) (path.join "items")
      exact ⟨_, mapKind_array_eq_ok.mpr ⟨element, helement, rfl⟩⟩
  | enumeration values => exact ⟨_, mapKind_enumeration_eq_ok.mpr ⟨hfilled, rfl⟩⟩
  | union branches =>
      obtain ⟨texts, htexts⟩ := mapBranches_ok branches h "anyOf" path 0
      exact ⟨_, mapKind_union_eq_ok.mpr ⟨hfilled, texts, htexts, rfl⟩⟩
  | intersection branches =>
      obtain ⟨texts, htexts⟩ := mapBranches_ok branches h "allOf" path 0
      exact ⟨_, mapKind_intersection_eq_ok.mpr ⟨hfilled, texts, htexts, rfl⟩⟩
  | _ => exact ⟨_, by rw [mapKind]⟩

/-- **A tree that is proper at every depth has an expression.** -/
theorem hasExpr_of_proper (h : node.Everywhere Node.Proper) : HasExpr node := by
  induction node using Node.induction with
  | step node ih =>
      intro path
      obtain ⟨base, hbase⟩ :=
        mapKind_ok h.self.filled (fun child hchild => ih child hchild (h.child child hchild)) path
      exact ⟨_, mapNode_eq_ok.mpr ⟨base, hbase, h.self.applies, rfl⟩⟩

/-! ### The place of a tree does not matter -/

theorem withRules_placeless (kind : Kind) (rules : List Rule) (e : Expr) :
    Placeless fun path => withRules kind path rules e := by
  induction rules generalizing e with
  | nil => exact of_const _
  | cons rule rest ih => exact .guard (ih _) (Placeless.fails _)

theorem mapAdditional_placeless {additional : Option Node} (h : ∀ node ∈ additional, Placeless (mapNode node)) :
    Placeless (mapAdditional additional) := by
  intro path path'
  cases additional with
  | none => exact .refl _
  | some node =>
      rw [mapAdditional, mapAdditional]
      exact ((h node rfl).at_place (·.join "additionalProperties")).map path path'

theorem mapProperties_placeless {required : List String} {properties : List (String × Node)}
    (h : ∀ property ∈ properties, Placeless (mapNode property.2)) :
    Placeless fun path => mapProperties required path properties := by
  induction properties with
  | nil =>
      intro path path'
      simp only [mapProperties]
      exact .refl _
  | cons property rest ih =>
      obtain ⟨hfirst, hrest⟩ := List.forall_mem_cons.mp h
      intro path path'
      dsimp only
      rw [mapProperties, mapProperties]
      exact (hfirst.at_place (·.join property.1)).bind (fun _ => (ih hrest).map) path path'

theorem mapBranches_placeless {keyword : String} {branches : List Node}
    (h : ∀ branch ∈ branches, Placeless (mapNode branch)) (index : Nat) :
    Placeless fun path => mapBranches keyword path index branches := by
  induction branches generalizing index with
  | nil =>
      intro path path'
      simp only [mapBranches]
      exact .refl _
  | cons branch rest ih =>
      obtain ⟨hfirst, hrest⟩ := List.forall_mem_cons.mp h
      intro path path'
      dsimp only
      rw [mapBranches, mapBranches]
      exact (hfirst.at_place (·.joinIndex keyword index)).bind (fun _ => (ih hrest (index + 1)).map) path path'

theorem mapKind_placeless {kind : Kind} (ih : ∀ child ∈ kind.children, Placeless (mapNode child)) :
    Placeless (mapKind kind) := by
  intro path path'
  cases kind with
  | object properties required additional closed =>
      rw [mapKind, mapKind]
      have hadditional := mapAdditional_placeless fun node hnode =>
        ih node (List.mem_append_right _ (Option.mem_toList.mpr hnode))
      have hproperties : Placeless fun path => mapProperties required path properties :=
        mapProperties_placeless fun property hproperty =>
          ih property.2 (List.mem_append_left _ (List.mem_map.mpr ⟨property, hproperty, rfl⟩))
      exact hadditional.bind (fun _ => (hproperties.at_place (·.join "properties")).map) path path'
  | array items =>
      rw [mapKind, mapKind]
      exact ((ih items List.mem_cons_self).at_place (·.join "items")).map path path'
  | enumeration values =>
      rw [mapKind, mapKind]
      exact Placeless.guard (Placeless.fails _) (of_const _) path path'
  | union branches =>
      rw [mapKind, mapKind]
      exact Placeless.guard (Placeless.fails _) (mapBranches_placeless ih 0).map path path'
  | intersection branches =>
      rw [mapKind, mapKind]
      exact Placeless.guard (Placeless.fails _) (mapBranches_placeless ih 0).map path path'
  | _ =>
      rw [mapKind, mapKind]
      exact .refl _

/-- **A tree has the same expression wherever it stands.** -/
theorem mapNode_placeless (node : Node) : Placeless (mapNode node) := by
  induction node using Node.induction with
  | step node ih =>
      obtain ⟨kind, rules, nullable⟩ := node
      intro path path'
      rw [mapNode, mapNode]
      exact (mapKind_placeless ih).bind (fun base => (withRules_placeless kind rules base).map) path path'

end ZodRoutes.Zod
