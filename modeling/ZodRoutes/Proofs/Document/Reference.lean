/-
References in documents.

Six kinds of objects are read on the way to a route: path items, operations, parameters, request bodies, the
media type that a body is read from, and schemas.  A reference is reported where a path item, a parameter, a
request body or a schema stands, so an accepted document has none there.  Operations and media types are not
asked whether they are references: they are read as if the reference was not there.
-/
import ZodRoutes.Proofs.Document.Routes
import ZodRoutes.Proofs.Schema.Accepted
import ZodRoutes.Proofs.Schema.Reference

namespace ZodRoutes.Document

open Http (Method)
open Json (Value)
open Request (Parameter)
open Schema.Grammar (Grammatical Inside)
open Steps

/-- What an object is that is read on the way to a route. -/
inductive Role where
  | pathItem
  | operation
  | parameter
  | requestBody
  | mediaType
  | schema
  deriving DecidableEq

/-- Whether a reference is reported where such an object stands. -/
def Role.checked : Role → Bool
  | operation | mediaType => false
  | pathItem | parameter | requestBody | schema => true

/-- The objects of a document that are read on the way to a route. -/
inductive Walked (document : Value) : Role → List (String × Value) → Prop
  | pathItem {path : String} {item : List (String × Value)} (mem : (path, .obj item) ∈ pathItems document) :
      Walked document .pathItem item
  | operation {item fields : List (String × Value)} {method : Method} (owner : Walked document .pathItem item)
      (mem : (method.token, .obj fields) ∈ item) : Walked document .operation fields
  | parameter {role : Role} {owner fields : List (String × Value)} {list : List Value}
      (declares : role = .pathItem ∨ role = .operation) (h : Walked document role owner)
      (parameters : Entries.get? owner "parameters" = some (.arr list)) (mem : .obj fields ∈ list) :
      Walked document .parameter fields
  | requestBody {operation fields : List (String × Value)} (h : Walked document .operation operation)
      (body : Entries.get? operation "requestBody" = some (.obj fields)) : Walked document .requestBody fields
  | mediaType {body media fields : List (String × Value)} {name : String} (h : Walked document .requestBody body)
      (content : Entries.get? body "content" = some (.obj media))
      (selected : (media.find? fun (name, _) => isJson name) = some (name, .obj fields)) :
      Walked document .mediaType fields
  | schema {role : Role} {owner members : List (String × Value)}
      (holds : role = .parameter ∨ role = .mediaType) (h : Walked document role owner)
      (schema : Entries.get? owner "schema" = some (.obj members)) : Walked document .schema members
  | inside {members inner : List (String × Value)} (h : Walked document .schema members)
      (inside : Inside members (.obj inner)) : Walked document .schema inner

/-- An object is a reference that was not resolved. -/
def DocumentError.Unresolved (e : DocumentError) : Prop :=
  ∃ part path text, e = .schema part ⟨path, .unresolvedRef text⟩

/-! ### Accepted documents -/

/-- What an accepted document says of the objects that are read. -/
def Accepted : Role → List (String × Value) → Prop
  | .pathItem, item => Entries.get? item "$ref" = none ∧ Succeeds (declaredParameters item) ∧
    ∀ method value, (Method.token method, value) ∈ item →
      ∃ fields, value = .obj fields ∧ Succeeds (declaredParameters fields) ∧ Succeeds (bodyParameters fields)
  | .operation, fields => Succeeds (declaredParameters fields) ∧ Succeeds (bodyParameters fields)
  | .parameter, fields => Succeeds (readParameter (.obj fields))
  | .requestBody, fields => Succeeds (readBody (.obj fields))
  | .mediaType, fields => ∀ schema, Entries.get? fields "schema" = some schema → Grammatical schema
  | .schema, members => Grammatical (.obj members)

variable {document value : Value} {role : Role} {fields : List (String × Value)} {part : Part}

theorem grammatical_of_readSchema {schema : Value} (h : Succeeds (readSchema schema part)) : Grammatical schema := by
  unfold readSchema at h
  cases hread : Schema.read schema with
  | ok node => exact (Schema.Reader.succeeds_readWithin (Nat.le_refl _) .root).mp ⟨node, hread⟩
  | error e =>
      rw [hread] at h
      exact absurd h (not_succeeds_error _)

/-- A parameter that is read is no reference, and its schema is accepted. -/
theorem of_readParameter (h : Succeeds (readParameter (.obj fields))) :
    Entries.get? fields "$ref" = none ∧
      ∀ schema, Entries.get? fields "schema" = some schema → Grammatical schema := by
  obtain ⟨parameter, h⟩ := h
  unfold readParameter at h
  obtain ⟨_, hfields, h⟩ := bind_eq_ok.mp h
  cases hfields
  obtain ⟨⟨⟩, hreference, h⟩ := bind_eq_ok.mp h
  obtain ⟨name, -, h⟩ := bind_eq_ok.mp h
  obtain ⟨token, -, h⟩ := bind_eq_ok.mp h
  refine ⟨rejectReference_eq_ok.mp hreference, fun schema hschema => ?_⟩
  split at h
  · cases h
  · obtain ⟨required, -, h⟩ := bind_eq_ok.mp h
    rw [hschema] at h
    obtain ⟨node, hnode, -⟩ := bind_eq_ok.mp h
    exact grammatical_of_readSchema ⟨node, hnode⟩

/-- A body that is read is no reference, and the schema of its media type is accepted. -/
theorem of_readBody (h : Succeeds (readBody (.obj fields))) :
    Entries.get? fields "$ref" = none ∧
      ∀ media name body schema, Entries.get? fields "content" = some (.obj media) →
        (media.find? fun (name, _) => isJson name) = some (name, body) → body.get? "schema" = some schema →
          Grammatical schema := by
  obtain ⟨parameters, h⟩ := h
  unfold readBody at h
  obtain ⟨_, hfields, h⟩ := bind_eq_ok.mp h
  cases hfields
  obtain ⟨⟨⟩, hreference, h⟩ := bind_eq_ok.mp h
  obtain ⟨required, -, h⟩ := bind_eq_ok.mp h
  refine ⟨rejectReference_eq_ok.mp hreference, fun media name body schema hcontent hselected hschema => ?_⟩
  rw [hcontent] at h
  obtain ⟨_, hmedia, h⟩ := bind_eq_ok.mp h
  cases hmedia
  rw [hselected] at h
  dsimp only at h
  rw [hschema] at h
  obtain ⟨node, hnode, -⟩ := bind_eq_ok.mp h
  exact grammatical_of_readSchema ⟨node, hnode⟩

/-- Parameters that are declared are read one by one. -/
theorem of_declaredParameters (h : Succeeds (declaredParameters fields)) {list : List Value}
    (hlist : Entries.get? fields "parameters" = some (.arr list)) :
    ∀ item ∈ list, Succeeds (readParameter item) := by
  unfold declaredParameters at h
  rw [hlist] at h
  exact succeeds_mapM.mp h

theorem of_bodyParameters (h : Succeeds (bodyParameters fields)) {body : Value}
    (hbody : Entries.get? fields "requestBody" = some body) : Succeeds (readBody body) := by
  unfold bodyParameters at h
  rwa [hbody] at h

theorem of_read {operation : Operation} (h : Succeeds operation.read) :
    ∃ fields, operation.value = .obj fields ∧ Succeeds (declaredParameters fields) ∧
      Succeeds (bodyParameters fields) := by
  obtain ⟨route, h⟩ := h
  unfold Operation.read at h
  obtain ⟨shared, -, h⟩ := bind_eq_ok.mp h
  unfold readOperation at h
  obtain ⟨fields, hfields, h⟩ := bind_eq_ok.mp h
  obtain ⟨parameters, hparameters, -⟩ := bind_eq_ok.mp h
  unfold operationParameters at hparameters
  obtain ⟨own, hown, hparameters⟩ := bind_eq_ok.mp hparameters
  obtain ⟨body, hbody, -⟩ := bind_eq_ok.mp hparameters
  exact ⟨fields, members_eq_ok.mp hfields, ⟨own, hown⟩, ⟨body, hbody⟩⟩

/-- Everything that is read in an accepted document is accepted. -/
theorem accepted_of_walked {routes : List Route} (hread : readRoutes document = .ok routes)
    (h : Walked document role fields) : Accepted role fields := by
  obtain ⟨hopens, hoperations⟩ := read_of_addPaths (readRoutes_ok hread).2
  induction h with
  | @pathItem path item mem =>
      obtain ⟨_, shared, hitem⟩ := hopens _ mem
      cases hitem.object
      refine ⟨hitem.noReference, ⟨shared, hitem.parameters⟩, fun method value hmem => ?_⟩
      exact of_read (hoperations ⟨path, item, method, value⟩ (mem_pathOperations mem hmem))
  | operation _ mem ih =>
      obtain ⟨_, heq, haccepted⟩ := ih.2.2 _ _ mem
      cases heq
      exact haccepted
  | parameter declares _ parameters mem ih =>
      rcases declares with rfl | rfl
      · exact of_declaredParameters ih.2.1 parameters _ mem
      · exact of_declaredParameters ih.1 parameters _ mem
  | requestBody _ body ih => exact of_bodyParameters ih.2 body
  | mediaType _ content selected ih =>
      exact fun schema hschema => (of_readBody ih).2 _ _ _ schema content selected hschema
  | schema holds _ schema ih =>
      rcases holds with rfl | rfl
      · exact (of_readParameter ih).2 _ schema
      · exact ih _ schema
  | inside _ inside ih => exact (Schema.Grammar.grammatical_obj.mp ih).2 _ inside

/-- What is accepted is no reference, where references are reported. -/
theorem Accepted.noReference (h : Accepted role fields) (hchecked : role.checked) :
    Entries.get? fields "$ref" = none := by
  cases role with
  | pathItem => exact h.1
  | parameter => exact (of_readParameter h).1
  | requestBody => exact (of_readBody h).1
  | schema => exact (Schema.Grammar.grammatical_obj.mp h).1.noReference
  | operation | mediaType => cases hchecked

/-! ### Documents without references

References are left out where objects of certain roles stand, wherever they are.
-/

section Without

variable (drops : Role → Bool)

/-- The fields of an object of a role, without its reference if that is to be left out, and with other
values inside. -/
def fieldsWithout (role : Role) (inside : String → Value → Value) (fields : List (String × Value)) :
    List (String × Value) :=
  (fields.filter fun field => !(drops role && field.1 == "$ref")).map fun field =>
    (field.1, inside field.1 field.2)

def objectWithout (role : Role) (inside : String → Value → Value) : Value → Value
  | .obj fields => .obj (fieldsWithout drops role inside fields)
  | value => value

def schemaWithout (schema : Value) : Value :=
  if drops .schema then Schema.withoutReferences schema else schema

/-- What an object with a schema holds. -/
def schemaFieldWithout (field : String) (value : Value) : Value :=
  if field = "schema" then schemaWithout drops value else value

def parametersWithout : Value → Value
  | .arr items => .arr (items.map (objectWithout drops .parameter (schemaFieldWithout drops)))
  | value => value

def contentWithout : Value → Value
  | .obj media => .obj (media.map fun body =>
    (body.1, objectWithout drops .mediaType (schemaFieldWithout drops) body.2))
  | value => value

/-- What a request body holds. -/
def bodyFieldWithout (field : String) (value : Value) : Value :=
  if field = "content" then contentWithout drops value else value

/-- What an operation holds. -/
def operationFieldWithout (field : String) (value : Value) : Value :=
  if field = "parameters" then parametersWithout drops value
  else if field = "requestBody" then objectWithout drops .requestBody (bodyFieldWithout drops) value
  else value

/-- What a path item holds. -/
def itemFieldWithout (field : String) (value : Value) : Value :=
  if field = "parameters" then parametersWithout drops value
  else if (Method.ofToken? field).isSome then objectWithout drops .operation (operationFieldWithout drops) value
  else value

def pathsWithout : Value → Value
  | .obj paths => .obj (paths.map fun entry =>
    (entry.1, objectWithout drops .pathItem (itemFieldWithout drops) entry.2))
  | value => value

/-- What a document holds. -/
def documentFieldWithout (field : String) (value : Value) : Value :=
  if field = "paths" then pathsWithout drops value else value

/-- A document without the references of objects of these roles. -/
def withoutReferences : Value → Value
  | .obj members => .obj (members.map fun member => (member.1, documentFieldWithout drops member.1 member.2))
  | value => value

end Without

/-- A reference is reported that was left out. -/
def Reported (drops : Role → Bool) (e : DocumentError) : Prop :=
  (∃ role, drops role ∧ role.checked) ∧ e.Unresolved

variable {drops : Role → Bool} {inside : String → Value → Value}

theorem get?_fieldsWithout {field : String} (h : drops role = false ∨ field ≠ "$ref") :
    Entries.get? (fieldsWithout drops role inside fields) field =
      (Entries.get? fields field).map (inside field) := by
  have hkeep : !(drops role && field == "$ref") := by
    rcases h with h | h <;> simp [h]
  unfold fieldsWithout
  rw [Entries.get?_map_named, @Entries.get?_filter _ fields field (fun field => !(drops role && field == "$ref")) hkeep]

theorem get?_fieldsWithout_reference (h : drops role) :
    Entries.get? (fieldsWithout drops role inside fields) "$ref" = none := by
  rw [Entries.get?_eq_none]
  intro hmem
  obtain ⟨_, hmapped, hname⟩ := List.mem_map.mp hmem
  obtain ⟨field, hfield, rfl⟩ := List.mem_map.mp hmapped
  have hkept := (List.mem_filter.mp hfield).2
  simp only [h, Bool.true_and, Bool.not_eq_true', beq_eq_false_iff_ne] at hkept
  exact hkept hname

/-- A reference that is left out may have been reported. -/
theorem rejectReference_without (hchecked : role.checked) (hinside : ∀ value, inside "$ref" value = value)
    (part : Part) :
    EndsAs (Reported drops) (rejectReference fields part)
      (rejectReference (fieldsWithout drops role inside fields) part) := by
  unfold rejectReference
  cases hdrops : drops role with
  | true =>
      rw [get?_fieldsWithout_reference hdrops]
      cases Entries.get? fields "$ref" with
      | none => exact .refl _
      | some reference => exact .of_error ⟨⟨role, hdrops, hchecked⟩, part, _, _, rfl⟩
  | false =>
      rw [get?_fieldsWithout (.inl hdrops)]
      cases Entries.get? fields "$ref" with
      | none => exact .refl _
      | some reference =>
          rw [Option.map_some, hinside]
          exact .refl _

theorem readSchema_without (schema : Value) (part : Part) :
    EndsAs (Reported drops) (readSchema schema part) (readSchema (schemaWithout drops schema) part) := by
  unfold schemaWithout
  cases hdrops : drops .schema with
  | false => exact .refl _
  | true =>
      rw [if_pos rfl]
      unfold readSchema Schema.read
      rcases Schema.readAt_withoutReferences schema .root with heq | ⟨e, herror, text, htext⟩
      · rw [heq]
        exact .refl _
      · rw [herror]
        refine .of_error ⟨⟨.schema, hdrops, rfl⟩, part, e.path, text, ?_⟩
        rw [← htext]

theorem requiredText_congr {others : List (String × Value)} {field : String}
    (h : Entries.get? others field = Entries.get? fields field) (part : Part) :
    requiredText others field part = requiredText fields field part := by
  unfold requiredText
  rw [h]

theorem requiredFlag_congr {others : List (String × Value)}
    (h : Entries.get? others "required" = Entries.get? fields "required") (default : Bool) (part : Part) :
    requiredFlag others default part = requiredFlag fields default part := by
  unfold requiredFlag
  rw [h]

/-- The fields that hold nothing to leave a reference out of stay as they are. -/
theorem get?_fieldsWithout_same {field : String} (h : field ≠ "$ref")
    (hinside : ∀ value, inside field value = value) :
    Entries.get? (fieldsWithout drops role inside fields) field = Entries.get? fields field := by
  rw [get?_fieldsWithout (.inr h)]
  cases Entries.get? fields field with
  | none => rfl
  | some value => rw [Option.map_some, hinside]

theorem readParameter_without (value : Value) :
    EndsAs (Reported drops) (readParameter value)
      (readParameter (objectWithout drops .parameter (schemaFieldWithout drops) value)) := by
  cases value with
  | obj fields =>
      have hsame : ∀ {field}, field ≠ "$ref" → field ≠ "schema" →
          Entries.get? (fieldsWithout drops .parameter (schemaFieldWithout drops) fields) field =
            Entries.get? fields field :=
        fun hreference hschema => get?_fieldsWithout_same hreference fun _ => if_neg hschema
      unfold readParameter
      refine EndsAs.start ?_
      refine (rejectReference_without rfl (fun _ => rfl) _).bind fun _ => ?_
      rw [requiredText_congr (hsame (by decide) (by decide))]
      refine (EndsAs.refl _).bind fun name => ?_
      rw [requiredText_congr (hsame (by decide) (by decide))]
      refine (EndsAs.refl _).bind fun token => ?_
      split
      · exact .refl _
      · rw [requiredFlag_congr (hsame (by decide) (by decide))]
        refine (EndsAs.refl _).bind fun required => ?_
        rw [get?_fieldsWithout (.inr (by decide))]
        cases Entries.get? fields "schema" with
        | none => exact .refl _
        | some schema => exact (readSchema_without schema _).andThen
  | _ => exact .refl _

theorem declaredParameters_without (hreference : drops role = false ∨ "parameters" ≠ "$ref")
    (hinside : ∀ value, inside "parameters" value = parametersWithout drops value) :
    EndsAs (Reported drops) (declaredParameters fields)
      (declaredParameters (fieldsWithout drops role inside fields)) := by
  unfold declaredParameters
  rw [get?_fieldsWithout hreference]
  cases Entries.get? fields "parameters" with
  | none => exact .refl _
  | some value =>
      rw [Option.map_some, hinside]
      cases value with
      | arr items =>
          refine EndsAs.mapM (List.forall₂_map_right_iff.mpr (List.forall₂_same.mpr ?_))
          exact fun item _ => readParameter_without item
      | _ => exact .refl _

/-- The same media type is selected. -/
theorem find?_without {f : Value → Value} (media : List (String × Value)) :
    ((media.map fun body => (body.1, f body.2)).find? fun (name, _) => isJson name) =
      (media.find? fun (name, _) => isJson name).map fun body => (body.1, f body.2) := by
  induction media with
  | nil => rfl
  | cons body rest ih =>
      rw [List.map_cons, List.find?_cons, List.find?_cons]
      dsimp only
      cases isJson body.1 with
      | true => rfl
      | false => exact ih

theorem readBody_without (value : Value) :
    EndsAs (Reported drops) (readBody value)
      (readBody (objectWithout drops .requestBody (bodyFieldWithout drops) value)) := by
  cases value with
  | obj fields =>
      unfold readBody
      refine EndsAs.start ?_
      refine (rejectReference_without rfl (fun _ => rfl) _).bind fun _ => ?_
      rw [requiredFlag_congr (get?_fieldsWithout_same (by decide) fun _ => if_neg (by decide))]
      refine (EndsAs.refl _).bind fun required => ?_
      rw [get?_fieldsWithout (.inr (by decide))]
      cases Entries.get? fields "content" with
      | none => exact .refl _
      | some content =>
          cases content with
          | obj media =>
              refine EndsAs.start ?_
              dsimp only
              rw [find?_without]
              cases media.find? fun (name, _) => isJson name with
              | none => exact .refl _
              | some selected =>
                  obtain ⟨name, body⟩ := selected
                  cases body with
                  | obj fields =>
                      dsimp only [Option.map_some, objectWithout, Value.get?]
                      rw [get?_fieldsWithout (.inr (by decide))]
                      cases Entries.get? fields "schema" with
                      | none => exact .refl _
                      | some schema => exact (readSchema_without schema _).andThen
                  | _ => exact .refl _
          | _ => exact .refl _
  | _ => exact .refl _

theorem bodyParameters_without :
    EndsAs (Reported drops) (bodyParameters fields)
      (bodyParameters (fieldsWithout drops .operation (operationFieldWithout drops) fields)) := by
  unfold bodyParameters
  rw [get?_fieldsWithout (.inr (by decide))]
  cases Entries.get? fields "requestBody" with
  | none => exact .refl _
  | some body => exact readBody_without body

theorem readOperation_without (path : String) (shared : List Parameter) (method : Method) (value : Value) :
    EndsAs (Reported drops) (readOperation path shared method value)
      (readOperation path shared method
        (objectWithout drops .operation (operationFieldWithout drops) value)) := by
  cases value with
  | obj fields =>
      have hsame : ∀ {field}, field ∉ ["$ref", "parameters", "requestBody"] →
          Entries.get? (fieldsWithout drops .operation (operationFieldWithout drops) fields) field =
            Entries.get? fields field := by
        intro field hfield
        simp only [List.mem_cons, List.not_mem_nil, or_false, not_or] at hfield
        refine get?_fieldsWithout_same hfield.1 fun value => ?_
        unfold operationFieldWithout
        rw [if_neg hfield.2.1, if_neg hfield.2.2]
      unfold readOperation
      refine EndsAs.start ?_
      refine EndsAs.bind ?_ fun parameters => ?_
      · unfold operationParameters
        refine (declaredParameters_without (.inr (by decide)) fun _ => rfl).bind fun own => ?_
        exact bodyParameters_without.andThen
      · unfold operationName
        rw [hsame (by decide), hsame (by decide)]
        exact .refl _
  | _ => exact .refl _

theorem addOperations_without (path : String) (shared : List Parameter) (routes : List Route)
    (item : List (String × Value)) :
    EndsAs (Reported drops) (addOperations path shared routes item)
      (addOperations path shared routes (fieldsWithout drops .pathItem (itemFieldWithout drops) item)) := by
  induction item generalizing routes with
  | nil => exact .refl _
  | cons member rest ih =>
      obtain ⟨key, value⟩ := member
      unfold fieldsWithout at ih ⊢
      rw [List.filter_cons]
      cases hmethod : Method.ofToken? key with
      | none =>
          rw [addOperations, hmethod]
          dsimp only
          by_cases hkeep : !(drops .pathItem && key == "$ref")
          · rw [if_pos hkeep, List.map_cons, addOperations, hmethod]
            exact ih routes
          · rw [if_neg hkeep]
            exact ih routes
      | some method =>
          have hreference : key ≠ "$ref" := ne_of_ofToken? hmethod rfl
          have hparameters : key ≠ "parameters" := ne_of_ofToken? hmethod rfl
          have hkeep : !(drops .pathItem && key == "$ref") := by simp [hreference]
          have hinside : itemFieldWithout drops key value =
              objectWithout drops .operation (operationFieldWithout drops) value := by
            unfold itemFieldWithout
            rw [if_neg hparameters, hmethod, Option.isSome_some, if_pos rfl]
          rw [if_pos hkeep, List.map_cons, addOperations, addOperations, hmethod, hinside]
          refine (readOperation_without path shared method value).bind fun route => ?_
          exact (EndsAs.refl _).bind fun routes => ih routes

theorem addPathItem_without (routes : List Route) (path : String) (value : Value) :
    EndsAs (Reported drops) (addPathItem routes path value)
      (addPathItem routes path (objectWithout drops .pathItem (itemFieldWithout drops) value)) := by
  cases value with
  | obj item =>
      unfold addPathItem
      refine EndsAs.start ?_
      refine (rejectReference_without rfl (fun _ => rfl) _).bind fun _ => ?_
      refine (declaredParameters_without (.inr (by decide)) fun _ => rfl).bind fun shared => ?_
      exact addOperations_without path shared routes item
  | _ => exact .refl _

theorem addPaths_without (routes : List Route) (paths : List (String × Value)) :
    EndsAs (Reported drops) (addPaths routes paths)
      (addPaths routes (paths.map fun entry =>
        (entry.1, objectWithout drops .pathItem (itemFieldWithout drops) entry.2))) := by
  induction paths generalizing routes with
  | nil => exact .refl _
  | cons entry rest ih =>
      rw [List.map_cons, addPaths, addPaths]
      exact (addPathItem_without routes entry.1 entry.2).bind fun routes => ih routes

/-- Without references a document is read as before, unless one of them was reported. -/
theorem readRoutes_without (document : Value) :
    EndsAs (Reported drops) (readRoutes document) (readRoutes (withoutReferences drops document)) := by
  cases document with
  | obj members =>
      have hget : ∀ field, (withoutReferences drops (.obj members)).get? field =
          (Entries.get? members field).map (documentFieldWithout drops field) :=
        fun field => Entries.get?_map_named (documentFieldWithout drops)
      have hversion : version (withoutReferences drops (.obj members)) = version (.obj members) := by
        unfold version
        rw [hget]
        show ((Option.map (fun value => value) (Entries.get? members "openapi")).bind Value.str?).getD "" = _
        rw [Option.map_id']
        rfl
      have hpaths : (Value.obj members).get? "paths" = Entries.get? members "paths" := rfl
      unfold readRoutes
      rw [hversion, hget, hpaths]
      split
      · cases Entries.get? members "paths" with
        | none => exact .refl _
        | some value =>
            cases value with
            | obj paths => exact addPaths_without [] paths
            | _ => exact .refl _
      · exact .refl _
  | _ => exact .refl _

/-- **Which references are reported.**  An accepted document has no reference where a path item, a parameter, a
request body or a schema is read.  A reference there stops the reading, with the reference as the error unless
the document without any references fails in the same way.  References of operations and of media types are
not noticed: without them the document is read just the same. -/
theorem readRoutes_references (document : Value) :
    (∀ routes, readRoutes document = .ok routes → ∀ role fields, Walked document role fields → role.checked →
        Entries.get? fields "$ref" = none) ∧
      (∀ role fields, Walked document role fields → role.checked → Entries.get? fields "$ref" ≠ none →
        ∃ e, readRoutes document = .error e ∧
          (e.Unresolved ∨ readRoutes (withoutReferences (fun _ => true) document) = .error e)) ∧
      readRoutes document = readRoutes (withoutReferences (fun role => !role.checked) document) := by
  have haccepted : ∀ routes, readRoutes document = .ok routes → ∀ role fields, Walked document role fields →
      role.checked → Entries.get? fields "$ref" = none :=
    fun routes hread role fields hwalked hchecked => (accepted_of_walked hread hwalked).noReference hchecked
  refine ⟨haccepted, ?_, ?_⟩
  · intro role fields hwalked hchecked hreference
    cases hread : readRoutes document with
    | ok routes => exact absurd (haccepted routes hread role fields hwalked hchecked) hreference
    | error e =>
        refine ⟨e, rfl, ?_⟩
        rcases @readRoutes_without (fun _ => true) document with heq | ⟨other, herror, -, hunresolved⟩
        · exact .inr (heq ▸ hread)
        · rw [hread] at herror
          cases herror
          exact .inl hunresolved
  · refine (readRoutes_without document).eq ?_
    rintro e ⟨⟨role, hdrops, hchecked⟩, -⟩
    simp [hchecked] at hdrops

/-- A document whose only operation is a reference. -/
def operationReference : Value :=
  documentOf "3.0.3" [("/a", .obj [("get", .obj [("$ref", .str "#/op")])])]

/-- A document with a parameter whose schema is a reference. -/
def schemaReference : Value :=
  documentOf "3.0.3" [("/a", .obj [("parameters", .arr [.obj [("name", .str "q"), ("in", .str "query"),
    ("schema", .obj [("$ref", .str "#/s")])]]), ("get", .obj [])])]

theorem readRoutes_references_unnoticed :
    Walked operationReference .operation [("$ref", .str "#/op")] ∧
      readRoutes operationReference = readRoutes (documentOf "3.0.3" [("/a", .obj [("get", .obj [])])]) ∧
      Succeeds (readRoutes operationReference) ∧
      ∃ e, readRoutes schemaReference = .error e ∧ e.Unresolved := by
  have hitem : Walked operationReference .pathItem [("get", .obj [("$ref", .str "#/op")])] :=
    @Walked.pathItem _ "/a" _ List.mem_cons_self
  have howner : Walked schemaReference .pathItem _ := @Walked.pathItem _ "/a" _ List.mem_cons_self
  have hparameter : Walked schemaReference .parameter [("name", .str "q"), ("in", .str "query"),
      ("schema", .obj [("$ref", .str "#/s")])] := .parameter (.inl rfl) howner rfl List.mem_cons_self
  have hschema : Walked schemaReference .schema [("$ref", .str "#/s")] := .schema (.inl rfl) hparameter rfl
  obtain ⟨e, herror, hreported⟩ :=
    (readRoutes_references schemaReference).2.1 _ _ hschema rfl (by simp [Entries.get?_cons])
  refine ⟨@Walked.operation _ _ _ .get hitem List.mem_cons_self, (readRoutes_references operationReference).2.2,
    ⟨_, rfl⟩, e, herror, hreported.resolve_right ?_⟩
  intro hsame
  cases (show readRoutes (withoutReferences (fun _ => true) schemaReference) = .ok _ from rfl).symm.trans hsame

end ZodRoutes.Document
