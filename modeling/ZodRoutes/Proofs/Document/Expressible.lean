/-
Reading a document never fails on an expression.

The reader checks the document's own keywords and the mapping checks trees, with different reasons for
refusing.  The trees that the reader gives are proper, so the mapping accepts every one of them: every
parameter that is read has an expression, wherever its schema came from, and the error for a parameter
without an expression is never reported.  The latter is not about a result but about an error, so it is
carried through the chain of steps by `NoParameterError`.
-/
import ZodRoutes.Document.Operations
import ZodRoutes.Proofs.Request.LastWrite
import ZodRoutes.Proofs.Zod.Mapping

namespace ZodRoutes.Document

open Json (Value)
open Request (Buckets Parameter ParameterError)
open Steps (bind_eq_ok pure_eq_ok mapM_eq_ok exists_of_mem_results)

/-- A parameter has an expression. -/
def Expressible (p : Parameter) : Prop :=
  ∃ text, p.expression = .ok text

theorem expressible_of_proper {p : Parameter} (h : p.schema.Everywhere Schema.Node.Proper) :
    Expressible p := by
  obtain ⟨e, he⟩ := Zod.hasExpr_of_proper h .root
  exact ⟨p.expressionOf e, by rw [Parameter.expression, he]⟩

theorem readSchema_proper {schema : Value} {part : Part} {node : Schema.Node}
    (h : readSchema schema part = .ok node) : node.Everywhere Schema.Node.Proper := by
  unfold readSchema at h
  split at h
  · next hread =>
      cases h
      exact Schema.readAt_proper hread
  · cases h

/-- A parameter without a schema takes any value, one with a schema has the tree read from it. -/
theorem readParameter_proper {value : Value} {p : Parameter} (h : readParameter value = .ok p) :
    p.schema.Everywhere Schema.Node.Proper := by
  unfold readParameter at h
  obtain ⟨fields, -, h⟩ := bind_eq_ok.mp h
  obtain ⟨⟨⟩, -, h⟩ := bind_eq_ok.mp h
  obtain ⟨name, -, h⟩ := bind_eq_ok.mp h
  obtain ⟨token, -, h⟩ := bind_eq_ok.mp h
  split at h
  · cases h
  · obtain ⟨required, -, h⟩ := bind_eq_ok.mp h
    split at h
    · cases h
      exact Schema.Kind.Proper.plain ⟨trivial, by simp [Schema.Kind.children]⟩
    · obtain ⟨node, hnode, h⟩ := bind_eq_ok.mp h
      cases h
      exact readSchema_proper hnode

theorem readParameters_proper {value : Value} {ps : List Parameter} (h : readParameters value = .ok ps) :
    ∀ p ∈ ps, p.schema.Everywhere Schema.Node.Proper := by
  intro p hp
  unfold readParameters at h
  split at h
  · obtain ⟨item, -, hitem⟩ := exists_of_mem_results (mapM_eq_ok.mp h) hp
    exact readParameter_proper hitem
  · cases h

/-- The fields of a body are properties of one proper tree. -/
theorem readBody_proper {value : Value} {ps : List Parameter} (h : readBody value = .ok ps) :
    ∀ p ∈ ps, p.schema.Everywhere Schema.Node.Proper := by
  unfold readBody at h
  obtain ⟨fields, -, h⟩ := bind_eq_ok.mp h
  obtain ⟨⟨⟩, -, h⟩ := bind_eq_ok.mp h
  obtain ⟨required, -, h⟩ := bind_eq_ok.mp h
  split at h
  · cases h
  · obtain ⟨media, -, h⟩ := bind_eq_ok.mp h
    split at h
    · cases h
      simp
    · split at h
      · cases h
        simp
      · obtain ⟨node, hnode, h⟩ := bind_eq_ok.mp h
        have hproper := readSchema_proper hnode
        split at h
        · next properties _ _ _ hkind =>
            cases h
            intro p hp
            obtain ⟨⟨name, schema⟩, hmem, rfl⟩ := List.mem_map.mp hp
            refine hproper.child schema ?_
            rw [hkind]
            exact List.mem_append_left _ (List.mem_map.mpr ⟨_, hmem, rfl⟩)
        · cases h

/-- Overriding brings no parameter in that is not there already. -/
theorem mem_override {ps : List Parameter} {p q : Parameter} (h : q ∈ override ps p) : q ∈ ps ∨ q = p := by
  induction ps with
  | nil => exact .inr (List.mem_singleton.mp h)
  | cons first rest ih =>
      rw [override] at h
      split at h
      · rcases List.mem_cons.mp h with rfl | hrest
        · exact .inr rfl
        · exact .inl (List.mem_cons_of_mem _ hrest)
      · rcases List.mem_cons.mp h with rfl | hrest
        · exact .inl (by simp)
        · exact (ih hrest).imp_left (List.mem_cons_of_mem _)

theorem mem_foldl_override {own shared : List Parameter} {q : Parameter}
    (h : q ∈ own.foldl override shared) : q ∈ shared ∨ q ∈ own := by
  induction own generalizing shared with
  | nil => exact .inl h
  | cons p rest ih =>
      rcases ih h with hshared | hrest
      · rcases mem_override hshared with hold | rfl
        · exact .inl hold
        · exact .inr (by simp)
      · exact .inr (by simp [hrest])

theorem declaredParameters_proper {fields : List (String × Value)} {ps : List Parameter}
    (h : declaredParameters fields = .ok ps) : ∀ p ∈ ps, p.schema.Everywhere Schema.Node.Proper := by
  unfold declaredParameters at h
  split at h
  · exact readParameters_proper h
  · cases h
    simp

theorem bodyParameters_proper {operation : List (String × Value)} {ps : List Parameter}
    (h : bodyParameters operation = .ok ps) : ∀ p ∈ ps, p.schema.Everywhere Schema.Node.Proper := by
  unfold bodyParameters at h
  split at h
  · exact readBody_proper h
  · cases h
    simp

/-- Every parameter of an operation was read, from the path item, the operation or the body. -/
theorem operationParameters_proper {shared ps : List Parameter} {operation : List (String × Value)}
    (hshared : ∀ p ∈ shared, p.schema.Everywhere Schema.Node.Proper)
    (h : operationParameters shared operation = .ok ps) :
    ∀ p ∈ ps, p.schema.Everywhere Schema.Node.Proper := by
  unfold operationParameters at h
  obtain ⟨own, hown, h⟩ := bind_eq_ok.mp h
  obtain ⟨body, hbody, h⟩ := bind_eq_ok.mp h
  cases h
  intro p hp
  rcases List.mem_append.mp hp with hmerged | hfield
  · rcases mem_foldl_override hmerged with hold | hnew
    · exact hshared p hold
    · exact declaredParameters_proper hown p hnew
  · exact bodyParameters_proper hbody p hfield

/-! ### The error that is never reported -/

/-- A step does not fail on the expression of a parameter. -/
def NoParameterError {α : Type} (step : Except DocumentError α) : Prop :=
  ∀ label source, step ≠ .error (.params label source)

namespace NoParameterError

variable {α β : Type}

theorem ok (a : α) : NoParameterError (.ok a) := by
  intro label source h
  cases h

theorem andThen {step : Except DocumentError α} {next : α → Except DocumentError β}
    (hstep : NoParameterError step) (hnext : ∀ a, step = .ok a → NoParameterError (next a)) :
    NoParameterError (step >>= next) := by
  cases step with
  | error e =>
      intro label source h
      cases h
      exact hstep label source rfl
  | ok a => exact hnext a rfl

theorem mapM {read : α → Except DocumentError β} (h : ∀ item, NoParameterError (read item))
    (items : List α) : NoParameterError (items.mapM read) := by
  induction items with
  | nil => exact ok []
  | cons item rest ih =>
      rw [List.mapM_cons]
      exact andThen (h item) fun _ _ => andThen ih fun _ _ => ok _

end NoParameterError

open NoParameterError (ok andThen)

theorem members_noError (value : Value) (part : Part) (field : String) :
    NoParameterError (members value part field) := by
  intro label source h
  unfold members at h
  split at h <;> cases h

theorem rejectReference_noError (fields : List (String × Value)) (part : Part) :
    NoParameterError (rejectReference fields part) := by
  intro label source h
  unfold rejectReference at h
  split at h <;> cases h

theorem requiredText_noError (fields : List (String × Value)) (field : String) (part : Part) :
    NoParameterError (requiredText fields field part) := by
  intro label source h
  unfold requiredText at h
  split at h <;> cases h

theorem requiredFlag_noError (fields : List (String × Value)) (default : Bool) (part : Part) :
    NoParameterError (requiredFlag fields default part) := by
  intro label source h
  unfold requiredFlag at h
  split at h <;> cases h

theorem readSchema_noError (schema : Value) (part : Part) : NoParameterError (readSchema schema part) := by
  intro label source h
  unfold readSchema at h
  split at h <;> cases h

theorem readParameter_noError (value : Value) : NoParameterError (readParameter value) := by
  unfold readParameter
  refine andThen (members_noError _ _ _) fun fields _ => andThen (rejectReference_noError _ _) fun _ _ => ?_
  refine andThen (requiredText_noError _ _ _) fun name _ => andThen (requiredText_noError _ _ _) fun token _ => ?_
  split
  · intro label source h
    cases h
  · refine andThen (requiredFlag_noError _ _ _) fun required _ => ?_
    split
    · exact ok _
    · exact andThen (readSchema_noError _ _) fun _ _ => ok _

theorem readParameters_noError (value : Value) : NoParameterError (readParameters value) := by
  unfold readParameters
  split
  · exact NoParameterError.mapM readParameter_noError _
  · intro label source h
    cases h

theorem readBody_noError (value : Value) : NoParameterError (readBody value) := by
  unfold readBody
  refine andThen (members_noError _ _ _) fun fields _ => andThen (rejectReference_noError _ _) fun _ _ => ?_
  refine andThen (requiredFlag_noError _ _ _) fun required _ => ?_
  split
  · intro label source h
    cases h
  · refine andThen (members_noError _ _ _) fun media _ => ?_
    split
    · exact ok _
    · split
      · exact ok _
      · refine andThen (readSchema_noError _ _) fun node _ => ?_
        split
        · exact ok _
        · intro label source h
          cases h

theorem declaredParameters_noError (fields : List (String × Value)) :
    NoParameterError (declaredParameters fields) := by
  unfold declaredParameters
  split
  · exact readParameters_noError _
  · exact ok _

theorem bodyParameters_noError (operation : List (String × Value)) :
    NoParameterError (bodyParameters operation) := by
  unfold bodyParameters
  split
  · exact readBody_noError _
  · exact ok _

theorem operationParameters_noError (shared : List Parameter) (operation : List (String × Value)) :
    NoParameterError (operationParameters shared operation) := by
  unfold operationParameters
  exact andThen (declaredParameters_noError _) fun _ _ => andThen (bodyParameters_noError _) fun _ _ => ok _

/-- The one step that reports the error, on parameters that never cause it. -/
theorem operationBuckets_noError {ps : List Parameter}
    (h : ∀ p ∈ ps, p.schema.Everywhere Schema.Node.Proper) (label : String) :
    NoParameterError (operationBuckets label ps) := by
  obtain ⟨buckets, hbuckets⟩ := Buckets.ofParameters_ok fun p hp => expressible_of_proper (h p hp)
  unfold operationBuckets
  rw [hbuckets]
  exact ok _

theorem readOperation_noError {shared : List Parameter}
    (hshared : ∀ p ∈ shared, p.schema.Everywhere Schema.Node.Proper) (path : String)
    (method : Http.Method) (value : Value) : NoParameterError (readOperation path shared method value) := by
  unfold readOperation
  refine andThen (members_noError _ _ _) fun operation _ => ?_
  refine andThen (operationParameters_noError _ _) fun ps hps => ?_
  exact andThen (operationBuckets_noError (operationParameters_proper hshared hps) _) fun _ _ => ok _

theorem addRoute_noError (routes : List Route) (route : Route) :
    NoParameterError (addRoute routes route) := by
  intro label source h
  unfold addRoute at h
  split at h <;> cases h

theorem addOperations_noError {shared : List Parameter}
    (hshared : ∀ p ∈ shared, p.schema.Everywhere Schema.Node.Proper) (path : String)
    (item : List (String × Value)) :
    ∀ routes, NoParameterError (addOperations path shared routes item) := by
  induction item with
  | nil => exact fun routes => ok routes
  | cons entry rest ih =>
      intro routes
      obtain ⟨key, value⟩ := entry
      rw [addOperations]
      split
      · exact ih routes
      · refine andThen (readOperation_noError hshared _ _ _) fun route _ => ?_
        exact andThen (addRoute_noError _ _) fun routes _ => ih routes

theorem addPathItem_noError (routes : List Route) (path : String) (value : Value) :
    NoParameterError (addPathItem routes path value) := by
  unfold addPathItem
  refine andThen (members_noError _ _ _) fun item _ => andThen (rejectReference_noError _ _) fun _ _ => ?_
  refine andThen (declaredParameters_noError item) fun shared hshared => ?_
  exact addOperations_noError (declaredParameters_proper hshared) path item routes

theorem addPaths_noError (paths : List (String × Value)) :
    ∀ routes, NoParameterError (addPaths routes paths) := by
  induction paths with
  | nil => exact fun routes => ok routes
  | cons entry rest ih =>
      intro routes
      obtain ⟨path, value⟩ := entry
      rw [addPaths]
      exact andThen (addPathItem_noError _ _ _) fun routes _ => ih routes

theorem readRoutes_noError (document : Value) : NoParameterError (readRoutes document) := by
  unfold readRoutes
  split
  · split
    · exact ok _
    · exact addPaths_noError _ _
    · intro label source h
      cases h
  · intro label source h
    cases h

/-! ### What is read has an expression -/

/-- **Whatever the reader accepts, the mapping accepts too.** -/
theorem expressible_of_read :
    (∀ schema node, Schema.read schema = .ok node → ∃ text, Zod.expression node = .ok text) ∧
      (∀ document label source, readRoutes document ≠ .error (.params label source)) ∧
      (∀ value p, readParameter value = .ok p → Expressible p) ∧
      (∀ value ps, readParameters value = .ok ps → ∀ p ∈ ps, Expressible p) ∧
      (∀ value ps, readBody value = .ok ps → ∀ p ∈ ps, Expressible p) := by
  refine ⟨?_, readRoutes_noError, ?_, ?_, ?_⟩
  · intro schema node h
    obtain ⟨e, he⟩ := Zod.hasExpr_of_proper (Schema.readAt_proper h) .root
    exact ⟨e.text, by rw [Zod.expression, he]; rfl⟩
  · exact fun value p h => expressible_of_proper (readParameter_proper h)
  · exact fun value ps h p hp => expressible_of_proper (readParameters_proper h p hp)
  · exact fun value ps h p hp => expressible_of_proper (readBody_proper h p hp)

/-- A short text or null out of a list, narrowed once more by a composite keyword. -/
def narrowedSchema : Value :=
  .obj [("type", .arr [.str "string", .str "null"]), ("enum", .arr [.str "a", .null]),
    ("minLength", .num (.int 1)),
    ("allOf", .arr [.obj [("type", .str "string"), ("maxLength", .num (.int 3))]])]

/-- Its tree, one flat intersection that accepts null. -/
def narrowedNode : Schema.Node :=
  ⟨.intersection [⟨.enumeration [.str "a"], [], false⟩, ⟨.string, [.minLength 1], false⟩,
    ⟨.string, [.maxLength 3], false⟩], [], true⟩

/-- A query parameter of that schema. -/
def narrowedParameter : Value :=
  .obj [("name", .str "tag"), ("in", .str "query"), ("schema", narrowedSchema)]

/-- A body with one field of that schema. -/
def narrowedBody : Value :=
  .obj [("required", .bool true), ("content", .obj [("application/json", .obj [("schema",
    .obj [("type", .str "object"), ("properties", .obj [("tag", narrowedSchema)])])])])]

theorem expressible_of_read_narrowed :
    (Schema.read narrowedSchema = .ok narrowedNode ∧ ∃ text, Zod.expression narrowedNode = .ok text) ∧
      (readParameter narrowedParameter = .ok ⟨"tag", .query, false, narrowedNode⟩ ∧
        Expressible ⟨"tag", .query, false, narrowedNode⟩) ∧
      (readParameters (.arr [narrowedParameter]) = .ok [⟨"tag", .query, false, narrowedNode⟩] ∧
        ∀ p ∈ [(⟨"tag", .query, false, narrowedNode⟩ : Parameter)], Expressible p) ∧
      (readBody narrowedBody = .ok [⟨"tag", .body, false, narrowedNode⟩] ∧
        ∀ p ∈ [(⟨"tag", .body, false, narrowedNode⟩ : Parameter)], Expressible p) := by
  obtain ⟨hread, -, hparameter, hparameters, hbody⟩ := expressible_of_read
  exact ⟨⟨rfl, hread narrowedSchema _ rfl⟩, ⟨rfl, hparameter narrowedParameter _ rfl⟩,
    ⟨rfl, hparameters (.arr [narrowedParameter]) _ rfl⟩, ⟨rfl, hbody narrowedBody _ rfl⟩⟩

end ZodRoutes.Document
