/-
Composites of one branch.

A composite keyword with a single schema says what that schema says, and its expression is that of the schema: a
single branch stands by itself, so the text is the same, and so is what follows from the text.  What does not
follow from the text is whether a query value is turned into a number first.  That is asked of the tree, and the
answer is passed on by an intersection but not by a union: the branch of a union may be one of several, so a
union is never numeric, not even when it has a single numeric branch.
-/
import ZodRoutes.Proofs.Request.Coercion
import ZodRoutes.Proofs.Schema.Alike

namespace ZodRoutes.Request

open Json (Value)
open Schema (Kind Node Path composites readAt)
open Zod (Expr mapNode)

/-- A schema as the only one of a composite keyword. -/
def singleBranch (keyword : String) (schema : Value) : Value :=
  .obj [(keyword, .arr [schema])]

/-- A node as the only branch of the composite that a keyword makes. -/
def singleBranchNode (keyword : String) (node : Node) : Node :=
  if keyword = "allOf" then (Kind.intersection [node]).plain else (Kind.union [node]).plain

variable {keyword : String} {schema : Value} {node : Node} {path : Path} {e : Expr}

/-- A single schema is read as a single branch. -/
theorem branches_singleBranch (h : readAt schema path = .ok node) (keyword kind : String) :
    Schema.Reader.branches readAt [(keyword, .arr [schema])] keyword kind path = .ok (some [node]) := by
  have hbranch := (Schema.readAt_placeless schema).eq_ok h (path.joinIndex keyword 0)
  have hlisted : Schema.Reader.keyword? Value.arr? .notArray [(keyword, .arr [schema])] keyword path =
      .ok (some [schema]) :=
    Schema.Reader.keyword?_eq_some.mpr ⟨.arr [schema], by simp [Entries.get?_cons], rfl⟩
  simp [Schema.Reader.branches, hlisted, hbranch, bind, Except.bind, pure, Except.pure]

/-- A schema is read as the only branch of its composite. -/
theorem readAt_singleBranch (hkeyword : keyword ∈ composites) (h : readAt schema path = .ok node) :
    readAt (singleBranch keyword schema) path = .ok (singleBranchNode keyword node) := by
  have hbranches := branches_singleBranch h
  rw [singleBranch, Schema.Reader.readAt_obj, Schema.Reader.objectNode_eq_ok]
  rcases Schema.composite_cases hkeyword with rfl | rfl | rfl
  · exact ⟨⟨⟨[], false⟩, false, [], none, [], some [node], none, none⟩,
      ⟨rfl, rfl, rfl, rfl, rfl, rfl, hbranches "oneOf" "union", rfl, rfl⟩, rfl⟩
  · exact ⟨⟨⟨[], false⟩, false, [], none, [], none, some [node], none⟩,
      ⟨rfl, rfl, rfl, rfl, rfl, rfl, rfl, hbranches "anyOf" "union", rfl⟩, rfl⟩
  · exact ⟨⟨⟨[], false⟩, false, [], none, [], none, none, some [node]⟩,
      ⟨rfl, rfl, rfl, rfl, rfl, rfl, rfl, rfl, hbranches "allOf" "intersection"⟩, rfl⟩

/-- **A single branch stands by itself**: the composite has the text of its branch. -/
theorem mapNode_singleBranch (h : mapNode node path = .ok e) :
    mapNode (singleBranchNode keyword node) path = .ok (Expr.ofText e.text) := by
  have hbranch := (Zod.mapNode_placeless node).eq_ok h
  unfold singleBranchNode
  by_cases hkeyword : keyword = "allOf"
  · rw [if_pos hkeyword]
    refine Zod.mapNode_eq_ok.mpr ⟨Expr.ofText e.text, ?_, by simp [Kind.plain], rfl⟩
    refine Zod.mapKind_intersection_eq_ok.mpr ⟨by simp, [e.text], ?_, rfl⟩
    exact Zod.mapBranches_eq_ok.mpr (.cons ⟨e, hbranch _, rfl⟩ .nil)
  · rw [if_neg hkeyword]
    refine Zod.mapNode_eq_ok.mpr ⟨Expr.ofText e.text, ?_, by simp [Kind.plain], rfl⟩
    refine Zod.mapKind_union_eq_ok.mpr ⟨by simp, [e.text], ?_, rfl⟩
    exact Zod.mapBranches_eq_ok.mpr (.cons ⟨e, hbranch _, rfl⟩ .nil)

/-- An intersection of one branch is numeric when the branch is, a union never. -/
theorem isNumeric_singleBranch : (singleBranchNode keyword node).isNumeric ↔ keyword = "allOf" ∧ node.isNumeric := by
  unfold singleBranchNode
  by_cases hkeyword : keyword = "allOf"
  · simp [hkeyword, Kind.plain, Node.isNumeric, Node.anyNumeric]
  · simp [hkeyword, Kind.plain, Node.isNumeric, Kind.isNumeric]

/-! ### Parameters -/

/-- The parameter with the composite of its schema alone in place of the schema. -/
def Parameter.inSingleBranch (keyword : String) (p : Parameter) : Parameter :=
  { p with schema := singleBranchNode keyword p.schema }

theorem Parameter.needsCoercion_inSingleBranch (p : Parameter) :
    (p.inSingleBranch keyword).needsCoercion ↔ keyword = "allOf" ∧ p.needsCoercion := by
  simp only [needsCoercion, inSingleBranch, Bool.and_eq_true, isNumeric_singleBranch]
  tauto

/-- **When a single branch is transparent.**  The composite of one schema is read whenever the schema is, and a
parameter of it has the expression that a parameter of the schema has, unless the composite is a union and values
of the schema are turned into numbers there.  In that case they are not turned into numbers: the parameter has the
expression that it would have for the schema in a header. -/
theorem expression_singleBranch (h : Schema.read schema = .ok node) (hkeyword : keyword ∈ composites) :
    Schema.read (singleBranch keyword schema) = .ok (singleBranchNode keyword node) ∧
      ∀ p : Parameter, p.schema = node → ∃ text, (p.inSingleBranch keyword).expression = .ok text ∧
        (keyword = "allOf" ∨ ¬ p.needsCoercion → p.expression = .ok text) ∧
        (keyword ≠ "allOf" → p.needsCoercion →
          p.expression ≠ .ok text ∧ ({ p with location := .header } : Parameter).expression = .ok text) := by
  refine ⟨readAt_singleBranch hkeyword h, fun p hp => ?_⟩
  obtain ⟨e, he⟩ := Zod.hasExpr_of_proper (Schema.readAt_proper h) .root
  rw [← hp] at he
  have hwhole := Parameter.expression_eq (p := p.inSingleBranch keyword) (mapNode_singleBranch he)
  have hheader := Parameter.expression_eq (p := { p with location := .header }) he
  rw [Expr.text_ofText] at hwhole
  have hcoerced : (p.inSingleBranch keyword).needsCoercion ↔ keyword = "allOf" ∧ p.needsCoercion :=
    p.needsCoercion_inSingleBranch
  refine ⟨_, hwhole, ?_, ?_⟩
  · intro hcase
    have hsame : (p.inSingleBranch keyword).needsCoercion = p.needsCoercion := by
      rw [Bool.eq_iff_iff, hcoerced]
      tauto
    rw [Parameter.expression_eq he, hsame]
    rfl
  · intro hunion hnumeric
    have hplain : ¬ (p.inSingleBranch keyword).needsCoercion := fun hboth => hunion (hcoerced.mp hboth).1
    rw [if_neg hplain]
    refine ⟨?_, hheader⟩
    rw [Parameter.expression_eq he, if_pos hnumeric]
    intro heq
    exact coercion_text_ne _ _ ((String.append_left_inj _).mp (Except.ok.inj heq))

/-- A page number, as a schema. -/
def pageSchema : Value := .obj [("type", .str "integer"), ("minimum", .num (.int 1))]

/-- The parameter of that schema in the query. -/
def pageParameter : Parameter := ⟨"page", .query, true, ⟨.integer, [.min (Json.Number.int 1).toDouble], false⟩⟩

theorem expression_singleBranch_page :
    Schema.read pageSchema = .ok pageParameter.schema ∧
      (pageParameter.inSingleBranch "allOf").expression = pageParameter.expression ∧
      ∃ text, (pageParameter.inSingleBranch "oneOf").expression = .ok text ∧ pageParameter.expression ≠ .ok text ∧
        ({ pageParameter with location := .header } : Parameter).expression = .ok text := by
  have hread : Schema.read pageSchema = .ok pageParameter.schema := rfl
  have hevery : "allOf" ∈ composites := by decide
  have hsome : "oneOf" ∈ composites := by decide
  refine ⟨hread, ?_, ?_⟩
  · obtain ⟨text, hwhole, hsame, -⟩ := (expression_singleBranch hread hevery).2 pageParameter rfl
    rw [hwhole, hsame (.inl rfl)]
  · obtain ⟨text, hwhole, -, hdiffers⟩ := (expression_singleBranch hread hsome).2 pageParameter rfl
    exact ⟨text, hwhole, hdiffers (by decide) rfl⟩

/-- A number in the query is not turned into one behind a single branch of a union. -/
theorem expression_singleBranch_differs :
    ¬ ∀ schema node, Schema.read schema = .ok node → ∀ keyword ∈ composites,
      ∀ whole, Schema.read (singleBranch keyword schema) = .ok whole → ∀ name location required,
        (⟨name, location, required, whole⟩ : Parameter).expression =
          (⟨name, location, required, node⟩ : Parameter).expression := by
  intro h
  have hsame := h (.obj [("type", .str "integer")]) Kind.integer.plain rfl "anyOf" (by decide)
    (Kind.union [Kind.integer.plain]).plain rfl "page" .query true
  have htexts : (.ok "z.number().int()" : Except ParameterError String) =
      .ok "z.string().transform(Number).pipe(z.number().int())" := hsame
  exact absurd (Except.ok.inj htexts) (by decide)

end ZodRoutes.Request
