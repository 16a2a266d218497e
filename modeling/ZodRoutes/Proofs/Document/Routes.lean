/-
One route for each operation.

The operations of a document stand in its path items under the method tokens.  Reading them one after the
other carries the routes so far and the names that they have taken, and it may stop at any of them: at a path
item or an operation that is not accepted, or at a name that is taken.  Nothing else is carried along, so an
operation is read as it would be in a document of its own, with the parameters that its path item shares.

Whether the operations are read and whether their names differ are therefore two questions.  When every one
is read, adding their routes in order succeeds when the names differ, and otherwise stops at the first route
whose name an earlier one has.
-/
import Mathlib.Data.List.Nodup
import ZodRoutes.Document.Operations
import ZodRoutes.Emit.Module
import ZodRoutes.Proofs.Json.Pointer
import ZodRoutes.Proofs.Steps

namespace ZodRoutes.Document

open Http (Method)
open Json (Value)
open Request (Parameter)
open Steps

/-! ### The operations of a document -/

/-- An operation with the path item that it stands in. -/
structure Operation where
  path : String
  /-- The members of the path item. -/
  item : List (String × Value)
  method : Method
  value : Value

/-- The operations among some members of a path item, in order. -/
def operationsAmong (path : String) (item members : List (String × Value)) : List Operation :=
  members.filterMap fun member => (Method.ofToken? member.1).map fun method => ⟨path, item, method, member.2⟩

/-- The operations of path items, in order. -/
def pathOperations (paths : List (String × Value)) : List Operation :=
  paths.flatMap fun (path, value) =>
    match value with
    | .obj item => operationsAmong path item item
    | _ => []

/-- The path items of a document. -/
def pathItems (document : Value) : List (String × Value) :=
  match document.get? "paths" with
  | some (.obj paths) => paths
  | _ => []

/-- The operations of a document, in order. -/
def operations (document : Value) : List Operation :=
  pathOperations (pathItems document)

/-- A document of a version that has only these path items. -/
def documentOf (version : String) (paths : List (String × Value)) : Value :=
  .obj [("openapi", .str version), ("paths", .obj paths)]

/-- What the operations of a path item share. -/
def sharedMembers (item : List (String × Value)) : List (String × Value) :=
  ((Entries.get? item "parameters").map fun parameters => ("parameters", parameters)).toList

/-- A document with only one operation, and what it shares with others. -/
def Operation.alone (version : String) (operation : Operation) : Value :=
  documentOf version
    [(operation.path, .obj (sharedMembers operation.item ++ [(operation.method.token, operation.value)]))]

/-- A path item without its operations. -/
def withoutOperations : Value → Value
  | .obj item => .obj (item.filter fun member => (Method.ofToken? member.1).isNone)
  | value => value

/-- A document with only one path item, its operations left out. -/
def itemAlone (version path : String) (value : Value) : Value :=
  documentOf version [(path, withoutOperations value)]

/-- The route is that of an operation: it has its path and method, and is what the operation alone gives. -/
structure Operation.Gives (version : String) (operation : Operation) (route : Route) : Prop where
  path : route.path = operation.path
  method : route.method = operation.method
  alone : readRoutes (operation.alone version) = .ok [route]

/-- One route has a name that an earlier one has taken, while all before it differ. -/
def FirstTaken (routes : List Route) (name first second : String) : Prop :=
  ∃ before holder between route after, routes = before ++ holder :: between ++ route :: after ∧
    ((before ++ holder :: between).map (·.name)).Nodup ∧ holder.name = name ∧ route.name = name ∧
    first = holder.label ∧ second = route.label

/-! ### Adding routes in order -/

variable {routes added result : List Route} {route : Route}

theorem addRoute_of_new (h : route.name ∉ routes.map (·.name)) :
    addRoute routes route = .ok (routes ++ [route]) := by
  have hnone : routes.find? (·.name == route.name) = none := by
    rw [List.find?_eq_none]
    intro other hmem heq
    exact h (List.mem_map.mpr ⟨other, hmem, by simpa using heq⟩)
  unfold addRoute
  rw [hnone]

/-- A name that is taken is reported with the route that has it. -/
theorem addRoute_of_taken (h : route.name ∈ routes.map (·.name)) :
    ∃ before holder after, routes = before ++ holder :: after ∧ holder.name = route.name ∧
      addRoute routes route = .error (.duplicateName route.name holder.label route.label) := by
  obtain ⟨other, hmem, hname⟩ := List.mem_map.mp h
  cases hfind : routes.find? (·.name == route.name) with
  | none =>
      have hnot := List.find?_eq_none.mp hfind other hmem
      exact absurd (by simpa using hname) hnot
  | some holder =>
      obtain ⟨hholder, before, after, hroutes, -⟩ := List.find?_eq_some_iff_append.mp hfind
      refine ⟨before, holder, after, hroutes, by simpa using hholder, ?_⟩
      unfold addRoute
      rw [hfind]

/-- Routes whose names differ are all added. -/
theorem addRoutes_of_nodup (h : ((routes ++ added).map (·.name)).Nodup) :
    added.foldlM addRoute routes = .ok (routes ++ added) := by
  induction added generalizing routes with
  | nil => rw [List.append_nil]; rfl
  | cons route rest ih =>
      have hnew : route.name ∉ routes.map (·.name) := by
        rw [List.map_append, List.map_cons, List.nodup_append] at h
        intro hmem
        exact h.2.2 _ hmem route.name (by simp) rfl
      rw [List.append_cons] at h ⊢
      rw [List.foldlM_cons, addRoute_of_new hnew]
      exact ih h

/-- Routes whose names do not all differ are added up to the first one whose name is taken. -/
theorem addRoutes_of_taken (hroutes : (routes.map (·.name)).Nodup)
    (h : ¬ ((routes ++ added).map (·.name)).Nodup) :
    ∃ name first second, FirstTaken (routes ++ added) name first second ∧
      added.foldlM addRoute routes = .error (.duplicateName name first second) := by
  -- The names of the routes so far differ, up to the route that is reported.
  induction added generalizing routes with
  | nil =>
      rw [List.append_nil] at h
      exact absurd hroutes h
  | cons route rest ih =>
      rw [List.foldlM_cons]
      by_cases hnew : route.name ∈ routes.map (·.name)
      · obtain ⟨before, holder, after, rfl, hname, herror⟩ := addRoute_of_taken hnew
        refine ⟨_, _, _, ⟨before, holder, after, route, rest, rfl, hroutes, hname, rfl, rfl, rfl⟩, ?_⟩
        rw [herror]
        rfl
      · rw [List.append_cons] at h ⊢
        rw [addRoute_of_new hnew]
        refine ih ?_ h
        rw [List.map_append, List.nodup_append]
        refine ⟨hroutes, by simp, ?_⟩
        intro name hmem other hother heq
        rw [List.map_singleton, List.mem_singleton] at hother
        exact hnew (hother ▸ heq ▸ hmem)

/-- Adding routes from the start keeps them all exactly when their names differ. -/
theorem addRoutes_eq_ok : added.foldlM addRoute [] = .ok result ↔
    result = added ∧ (added.map (·.name)).Nodup := by
  by_cases h : (added.map (·.name)).Nodup
  · have hadded : added.foldlM addRoute [] = .ok added := @addRoutes_of_nodup [] added h
    rw [hadded]
    simp [h, eq_comm]
  · obtain ⟨_, _, _, -, herror⟩ := @addRoutes_of_taken [] added List.nodup_nil h
    rw [herror]
    simp [h]

/-- A name is reported exactly when two routes have it, and it is the first that is taken. -/
theorem addRoutes_duplicateName (routes : List Route) :
    ((∃ name first second, routes.foldlM addRoute [] = .error (.duplicateName name first second)) ↔
        ¬ (routes.map (·.name)).Nodup) ∧
      ∀ name first second, routes.foldlM addRoute [] = .error (.duplicateName name first second) →
        FirstTaken routes name first second := by
  by_cases hnodup : (routes.map (·.name)).Nodup
  · rw [addRoutes_eq_ok.mpr ⟨rfl, hnodup⟩]
    simp [hnodup]
  · obtain ⟨name, first, second, htaken, herror⟩ := @addRoutes_of_taken [] routes List.nodup_nil hnodup
    rw [herror]
    refine ⟨iff_of_true ⟨_, _, _, rfl⟩ hnodup, ?_⟩
    intro name' first' second' heq
    cases heq
    exact htaken

/-! ### Method tokens -/

/-- Only the token of a method is one. -/
theorem eq_token_of_ofToken? {key : String} {method : Method} (h : Method.ofToken? key = some method) :
    key = method.token := by
  unfold Method.ofToken? at h
  split at h <;> cases h <;> rfl

/-- No other field of a path item has the name of a method. -/
theorem ne_of_ofToken? {key other : String} {method : Method} (h : Method.ofToken? key = some method)
    (hother : Method.ofToken? other = none) : key ≠ other := by
  intro heq
  rw [heq, hother] at h
  cases h

/-! ### Reading operations in order -/

/-- The operation, read with the parameters that its path item shares. -/
def Operation.read (operation : Operation) : Except DocumentError Route := do
  let shared ← declaredParameters operation.item
  readOperation operation.path shared operation.method operation.value

/-- A path item is open to reading its operations, with these parameters to share. -/
structure Opens (value : Value) (item : List (String × Value)) (shared : List Parameter) : Prop where
  object : value = .obj item
  noReference : Entries.get? item "$ref" = none
  parameters : declaredParameters item = .ok shared

variable {path : String} {value : Value} {item rest : List (String × Value)} {shared : List Parameter}
  {operation : Operation}

/-- Buckets of an operation are those of its parameters. -/
theorem operationBuckets_eq_ok {label : String} {ps : List Parameter} {params : Request.Buckets} :
    operationBuckets label ps = .ok params ↔ Request.Buckets.ofParameters ps = .ok params := by
  unfold operationBuckets
  cases Request.Buckets.ofParameters ps <;> simp

/-- A route is that of its operation, with a name made from a text and the buckets of some parameters. -/
theorem Operation.read_eq_ok (h : operation.read = .ok route) :
    route.path = operation.path ∧ route.method = operation.method ∧ (∃ raw, route.name = routeName raw) ∧
      ∃ ps, Request.Buckets.ofParameters ps = .ok route.params := by
  unfold Operation.read at h
  obtain ⟨shared, -, h⟩ := bind_eq_ok.mp h
  unfold readOperation at h
  obtain ⟨members, -, h⟩ := bind_eq_ok.mp h
  obtain ⟨parameters, -, h⟩ := bind_eq_ok.mp h
  obtain ⟨params, hparams, h⟩ := bind_eq_ok.mp h
  rw [← pure_eq_ok.mp h]
  refine ⟨rfl, rfl, ?_, parameters, operationBuckets_eq_ok.mp hparams⟩
  show ∃ raw, operationName operation.path operation.method members = routeName raw
  unfold operationName
  split
  · exact ⟨_, rfl⟩
  · exact ⟨_, rfl⟩

theorem operationsAmong_other {key : String} (h : Method.ofToken? key = none) :
    operationsAmong path item ((key, value) :: rest) = operationsAmong path item rest := by
  unfold operationsAmong
  rw [List.filterMap_cons_none (by rw [h, Option.map_none])]

theorem operationsAmong_method {key : String} {method : Method} (h : Method.ofToken? key = some method) :
    operationsAmong path item ((key, value) :: rest) =
      ⟨path, item, method, value⟩ :: operationsAmong path item rest := by
  unfold operationsAmong
  rw [List.filterMap_cons_some (by rw [h, Option.map_some])]

/-- With the shared parameters at hand, only the operation itself is left to read. -/
theorem Operation.read_of_shared (hshared : declaredParameters operation.item = .ok shared) :
    operation.read = readOperation operation.path shared operation.method operation.value := by
  unfold Operation.read
  rw [hshared]
  rfl

/-- Operations that are all read are added in order. -/
theorem addOperations_of_read (hshared : declaredParameters item = .ok shared)
    (h : ∀ operation ∈ operationsAmong path item rest, Succeeds operation.read) :
    ∃ added,
      List.Forall₂ (fun operation route => operation.read = .ok route) (operationsAmong path item rest) added ∧
      ∀ routes, addOperations path shared routes rest = added.foldlM addRoute routes := by
  -- What is read does not depend on the routes so far, which may be any.
  induction rest with
  | nil => exact ⟨[], .nil, fun _ => rfl⟩
  | cons member rest ih =>
      obtain ⟨key, value⟩ := member
      simp only [addOperations]
      cases hmethod : Method.ofToken? key with
      | none =>
          rw [operationsAmong_other hmethod] at h ⊢
          exact ih h
      | some method =>
          rw [operationsAmong_method hmethod] at h ⊢
          obtain ⟨route, hroute⟩ := h _ List.mem_cons_self
          obtain ⟨added, hadded, hfold⟩ := ih fun other hother => h other (List.mem_cons_of_mem _ hother)
          refine ⟨route :: added, .cons hroute hadded, fun routes => ?_⟩
          rw [Operation.read_of_shared hshared] at hroute
          dsimp only at hroute ⊢
          rw [hroute, List.foldlM_cons]
          show (addRoute routes route >>= _) = _
          cases addRoute routes route with
          | error e => rfl
          | ok routes => exact hfold routes

/-- Where routes come out, every operation was read. -/
theorem read_of_addOperations (hshared : declaredParameters item = .ok shared)
    (h : addOperations path shared routes rest = .ok result) :
    ∀ operation ∈ operationsAmong path item rest, Succeeds operation.read := by
  induction rest generalizing routes with
  | nil => simp [operationsAmong]
  | cons member rest ih =>
      obtain ⟨key, value⟩ := member
      rw [addOperations] at h
      cases hmethod : Method.ofToken? key with
      | none =>
          rw [hmethod] at h
          rw [operationsAmong_other hmethod]
          exact ih h
      | some method =>
          rw [hmethod] at h
          obtain ⟨route, hroute, h⟩ := bind_eq_ok.mp h
          obtain ⟨_, -, h⟩ := bind_eq_ok.mp h
          rw [operationsAmong_method hmethod, List.forall_mem_cons]
          exact ⟨⟨route, (Operation.read_of_shared hshared).trans hroute⟩, ih h⟩

/-! ### Reading path items in order -/

/-- Only an object has members. -/
theorem members_eq_ok {part : Part} {field : String} : members value part field = .ok item ↔ value = .obj item := by
  cases value <;> simp [members]

theorem rejectReference_eq_ok {part : Part} :
    rejectReference item part = .ok () ↔ Entries.get? item "$ref" = none := by
  unfold rejectReference
  cases Entries.get? item "$ref" <;> simp

theorem Opens.addPathItem (h : Opens value item shared) (routes : List Route) (path : String) :
    addPathItem routes path value = addOperations path shared routes item := by
  unfold Document.addPathItem
  rw [h.object]
  show (rejectReference item (.pathItem path) >>= _) = _
  rw [rejectReference_eq_ok.mpr h.noReference]
  show (declaredParameters item >>= _) = _
  rw [h.parameters]
  rfl

theorem Opens.pathOperations_cons (h : Opens value item shared) :
    pathOperations ((path, value) :: rest) = operationsAmong path item item ++ pathOperations rest := by
  rw [h.object]
  rfl

theorem opens_of_addPathItem (h : addPathItem routes path value = .ok result) :
    ∃ item shared, Opens value item shared := by
  unfold Document.addPathItem at h
  obtain ⟨item, hitem, h⟩ := bind_eq_ok.mp h
  obtain ⟨⟨⟩, hreference, h⟩ := bind_eq_ok.mp h
  obtain ⟨shared, hshared, -⟩ := bind_eq_ok.mp h
  exact ⟨item, shared, members_eq_ok.mp hitem, rejectReference_eq_ok.mp hreference, hshared⟩

variable {paths : List (String × Value)}

/-- Path items that are open, and whose operations are all read, are added in order. -/
theorem addPaths_of_read (hopen : ∀ entry ∈ paths, ∃ item shared, Opens entry.2 item shared)
    (h : ∀ operation ∈ pathOperations paths, Succeeds operation.read) :
    ∃ added, List.Forall₂ (fun operation route => operation.read = .ok route) (pathOperations paths) added ∧
      ∀ routes, addPaths routes paths = added.foldlM addRoute routes := by
  induction paths with
  | nil => exact ⟨[], .nil, fun _ => rfl⟩
  | cons entry rest ih =>
      obtain ⟨path, value⟩ := entry
      obtain ⟨item, shared, hitem⟩ := hopen _ List.mem_cons_self
      rw [hitem.pathOperations_cons] at h ⊢
      obtain ⟨first, hfirst, hfirstFold⟩ := addOperations_of_read hitem.parameters
        fun operation hmem => h operation (List.mem_append_left _ hmem)
      obtain ⟨others, hothers, hothersFold⟩ := ih (fun entry hentry => hopen entry (List.mem_cons_of_mem _ hentry))
        fun operation hmem => h operation (List.mem_append_right _ hmem)
      refine ⟨first ++ others, List.rel_append hfirst hothers, fun routes => ?_⟩
      rw [addPaths, hitem.addPathItem, hfirstFold, List.foldlM_append]
      exact congrArg _ (funext hothersFold)

/-- Where routes come out, every path item was open and every operation was read. -/
theorem read_of_addPaths (h : addPaths routes paths = .ok result) :
    (∀ entry ∈ paths, ∃ item shared, Opens entry.2 item shared) ∧
      ∀ operation ∈ pathOperations paths, Succeeds operation.read := by
  induction paths generalizing routes with
  | nil => simp [pathOperations]
  | cons entry rest ih =>
      obtain ⟨path, value⟩ := entry
      rw [addPaths] at h
      obtain ⟨between, hitem, h⟩ := bind_eq_ok.mp h
      obtain ⟨hopen, hread⟩ := ih h
      obtain ⟨item, shared, hopens⟩ := opens_of_addPathItem hitem
      rw [hopens.addPathItem] at hitem
      refine ⟨List.forall_mem_cons.mpr ⟨⟨item, shared, hopens⟩, hopen⟩, ?_⟩
      rw [hopens.pathOperations_cons, List.forall_mem_append]
      exact ⟨read_of_addOperations hopens.parameters hitem, hread⟩

/-! ### Documents -/

/-- A version that is read. -/
abbrev Supported (version : String) : Prop :=
  "3.".toList.isPrefixOf version.toList

variable {declared : String} {document : Value}

theorem readRoutes_ok (h : readRoutes document = .ok routes) :
    Supported (version document) ∧ addPaths [] (pathItems document) = .ok routes := by
  unfold readRoutes at h
  split at h
  · next hsupported =>
      refine ⟨hsupported, ?_⟩
      unfold pathItems
      split at h
      · next hpaths => rw [hpaths]; exact h
      · next hpaths => rw [hpaths]; exact h
      · cases h
  · cases h

theorem readRoutes_eq (hsupported : Supported (version document)) (hpaths : pathItems document ≠ []) :
    readRoutes document = addPaths [] (pathItems document) := by
  unfold readRoutes
  rw [if_pos hsupported]
  unfold pathItems at hpaths ⊢
  split at hpaths
  · next paths hget => rw [hget]
  · exact absurd rfl hpaths

/-- A name is taken only where there are path items. -/
theorem readRoutes_ne_duplicateName (hpaths : pathItems document = []) (name first second : String) :
    readRoutes document ≠ .error (.duplicateName name first second) := by
  intro h
  unfold readRoutes at h
  split at h
  · unfold pathItems at hpaths
    split at h
    · cases h
    · next paths hget =>
        rw [hget] at hpaths
        dsimp only at hpaths
        rw [hpaths] at h
        cases h
    · cases h
  · cases h

theorem readRoutes_documentOf : readRoutes (documentOf declared paths) =
    if Supported declared then addPaths [] paths else .error (.unsupportedVersion declared) :=
  rfl

/-- What is shared is declared in the same way beside one operation only. -/
theorem get?_alone {key : String} (hkey : Method.ofToken? key = none) (method : Method) (value : Value) :
    Entries.get? (sharedMembers item ++ [(method.token, value)]) key =
      if key = "parameters" then Entries.get? item key else none := by
  have hne : key ≠ method.token := (ne_of_ofToken? (Method.ofToken?_token method) hkey).symm
  rw [Entries.get?_append, Entries.get?_cons, if_neg hne, Entries.get?_nil, Option.or_none]
  unfold sharedMembers
  by_cases hparameters : key = "parameters"
  · rw [if_pos hparameters, hparameters]
    cases Entries.get? item "parameters" with
    | none => rfl
    | some parameters => rfl
  · rw [if_neg hparameters]
    cases Entries.get? item "parameters" with
    | none => rfl
    | some parameters => simp [Entries.get?_cons, hparameters]

theorem addOperations_alone (method : Method) (value : Value) :
    addOperations path shared [] (sharedMembers item ++ [(method.token, value)]) =
      readOperation path shared method value >>= fun route => pure [route] := by
  have hsingle : addOperations path shared [] [(method.token, value)] =
      readOperation path shared method value >>= fun route => pure [route] := by
    rw [addOperations, Method.ofToken?_token]
    dsimp only
    cases readOperation path shared method value <;> rfl
  unfold sharedMembers
  cases Entries.get? item "parameters" with
  | none => exact hsingle
  | some parameters => exact hsingle

/-- Of its path item, an operation is read with no more than what is shared. -/
theorem readRoutes_alone (operation : Operation) : readRoutes (operation.alone declared) =
    if Supported declared then operation.read >>= fun route => pure [route]
    else .error (.unsupportedVersion declared) := by
  obtain ⟨path, item, method, value⟩ := operation
  have hdeclared : declaredParameters (sharedMembers item ++ [(method.token, value)]) = declaredParameters item := by
    unfold declaredParameters
    rw [get?_alone (by rfl), if_pos rfl]
  have hreference : Entries.get? (sharedMembers item ++ [(method.token, value)]) "$ref" = none := by
    rw [get?_alone (by rfl), if_neg (by decide)]
  have hitem : addPathItem [] path (.obj (sharedMembers item ++ [(method.token, value)])) =
      Operation.read ⟨path, item, method, value⟩ >>= fun route => pure [route] := by
    unfold addPathItem members Operation.read
    show (rejectReference _ (.pathItem path) >>= _) = _
    rw [rejectReference_eq_ok.mpr hreference]
    show (declaredParameters _ >>= _) = _
    rw [hdeclared, bind_assoc]
    exact congrArg _ (funext fun shared => addOperations_alone method value)
  unfold Operation.alone
  rw [readRoutes_documentOf]
  dsimp only
  rw [addPaths, hitem, bind_assoc]
  rfl

/-- A path item that is accepted without its operations is open. -/
theorem opens_of_itemAlone (h : Succeeds (readRoutes (itemAlone declared path value))) :
    Supported declared ∧ ∃ item shared, Opens value item shared := by
  obtain ⟨routes, hroutes⟩ := h
  obtain ⟨hsupported, hpaths⟩ := readRoutes_ok hroutes
  refine ⟨hsupported, ?_⟩
  obtain ⟨item, shared, hopens⟩ := (read_of_addPaths hpaths).1 (path, withoutOperations value) List.mem_cons_self
  dsimp only at hopens
  cases value with
  | obj members =>
      have hkept : ∀ {key}, Method.ofToken? key = none → Entries.get? item key = Entries.get? members key := by
        intro key hkey
        have hitem : members.filter (fun member => (Method.ofToken? member.1).isNone) = item := by
          simpa [withoutOperations] using hopens.object
        rw [← hitem]
        exact @Entries.get?_filter _ _ _ (fun name => (Method.ofToken? name).isNone) (by rw [hkey]; rfl)
      refine ⟨members, shared, rfl, ?_, ?_⟩
      · rw [← hkept (by rfl)]
        exact hopens.noReference
      · rw [← hopens.parameters]
        unfold declaredParameters
        rw [hkept (by rfl)]
  | _ => exact ⟨item, shared, hopens⟩

/-- The operations of a path item are among those of the document. -/
theorem mem_pathOperations {method : Method} (hitem : (path, .obj item) ∈ paths)
    (h : (method.token, value) ∈ item) : ⟨path, item, method, value⟩ ∈ pathOperations paths := by
  refine List.mem_flatMap.mpr ⟨_, hitem, List.mem_filterMap.mpr ⟨_, h, ?_⟩⟩
  rw [Method.ofToken?_token, Option.map_some]

/-! ### Names and places of routes -/

/-- Routes of different names are exported under different names, whatever is put behind them. -/
theorem nodup_constantNames (style : Emit.Style) (h : (routes.map (·.name)).Nodup) :
    (routes.map style.constantName).Nodup := by
  have hmap : routes.map style.constantName = (routes.map (·.name)).map (· ++ style.suffix) := by
    rw [List.map_map]
    rfl
  rw [hmap]
  exact List.Nodup.map (fun _ _ heq => (String.append_left_inj _).mp heq) h

theorem nodup_operationsAmong {members : List (String × Value)} (h : (Entries.names members).Nodup) :
    ((operationsAmong path item members).map fun operation => (operation.path, operation.method)).Nodup := by
  have hmethods : (operationsAmong path item members).map (fun operation => (operation.path, operation.method)) =
      ((Entries.names members).filterMap Method.ofToken?).map fun method => (path, method) := by
    unfold operationsAmong Entries.names
    rw [List.map_filterMap, List.filterMap_map, List.map_filterMap]
    simp only [Option.map_map]
    rfl
  rw [hmethods]
  refine List.Nodup.map (fun _ _ heq => (Prod.mk.inj heq).2) (List.Nodup.filterMap ?_ h)
  intro key key' method hkey hkey'
  rw [eq_token_of_ofToken? hkey, eq_token_of_ofToken? hkey']

/-- The operations of a path item are at its path. -/
theorem path_of_mem_operationsAmong {members : List (String × Value)}
    (h : operation ∈ operationsAmong path item members) : operation.path = path := by
  obtain ⟨member, -, hmember⟩ := List.mem_filterMap.mp h
  obtain ⟨method, -, rfl⟩ := Option.map_eq_some_iff.mp hmember
  rfl

theorem path_of_mem_pathOperations (h : operation ∈ pathOperations paths) :
    operation.path ∈ Entries.names paths := by
  obtain ⟨⟨path, value⟩, hentry, hmem⟩ := List.mem_flatMap.mp h
  cases value with
  | obj item =>
      rw [path_of_mem_operationsAmong hmem]
      exact List.mem_map.mpr ⟨_, hentry, rfl⟩
  | _ => cases hmem

/-- No two operations have both path and method in common. -/
theorem nodup_pathOperations (h : (Value.obj paths).namesDistinct) :
    ((pathOperations paths).map fun operation => (operation.path, operation.method)).Nodup := by
  obtain ⟨hnames, hitems⟩ := Value.namesDistinct_obj.mp h
  clear h
  induction paths with
  | nil => exact List.nodup_nil
  | cons entry rest ih =>
      obtain ⟨path, value⟩ := entry
      rw [Entries.names_cons, List.nodup_cons] at hnames
      have hrest := ih hnames.2 fun entry hentry => hitems entry (List.mem_cons_of_mem _ hentry)
      cases value with
      | obj item =>
          have hitem := (Value.namesDistinct_obj.mp (hitems (path, .obj item) List.mem_cons_self)).1
          show ((operationsAmong path item item ++ pathOperations rest).map _).Nodup
          rw [List.map_append, List.nodup_append]
          refine ⟨nodup_operationsAmong hitem, hrest, ?_⟩
          intro place hplace other hother heq
          obtain ⟨operation, hoperation, rfl⟩ := List.mem_map.mp hplace
          obtain ⟨operation', hoperation', rfl⟩ := List.mem_map.mp hother
          refine hnames.1 ?_
          have hpath : operation.path = operation'.path := (Prod.mk.inj heq).1
          rw [← path_of_mem_operationsAmong hoperation, hpath]
          exact path_of_mem_pathOperations hoperation'
      | _ => exact hrest

theorem nodup_operations (h : document.namesDistinct) :
    ((operations document).map fun operation => (operation.path, operation.method)).Nodup := by
  unfold operations pathItems
  split
  · next paths hpaths =>
      cases document with
      | obj members => exact nodup_pathOperations (Value.namesDistinct_of_get? h hpaths)
      | _ => cases hpaths
  · exact List.nodup_nil

/-! ### Every operation has its route -/

theorem Operation.gives_of_read (hsupported : Supported declared) (h : operation.read = .ok route) :
    operation.Gives declared route := by
  obtain ⟨hpath, hmethod, -, -⟩ := Operation.read_eq_ok h
  refine ⟨hpath, hmethod, ?_⟩
  rw [readRoutes_alone, if_pos hsupported, h]
  rfl

/-- Routes are where their operations are. -/
theorem places_of_gives {all : List Operation} (h : List.Forall₂ (Operation.Gives declared) all routes) :
    routes.map (fun route => (route.path, route.method)) =
      all.map fun operation => (operation.path, operation.method) := by
  induction h with
  | nil => rfl
  | cons hfirst _ ih => rw [List.map_cons, List.map_cons, ih, hfirst.path, hfirst.method]

/-- What comes out of a document is what its operations are read as, in order, and the names differ. -/
theorem read_of_readRoutes (h : readRoutes document = .ok routes) :
    List.Forall₂ (fun operation route => operation.read = .ok route) (operations document) routes ∧
      (routes.map (·.name)).Nodup := by
  obtain ⟨-, hpaths⟩ := readRoutes_ok h
  obtain ⟨hopen, hread⟩ := read_of_addPaths hpaths
  obtain ⟨added, hadded, hfold⟩ := addPaths_of_read hopen hread
  rw [hfold] at hpaths
  obtain ⟨rfl, hnodup⟩ := addRoutes_eq_ok.mp hpaths
  exact ⟨hadded, hnodup⟩

/-- What comes out of a document are the routes of its operations, in order, and their names differ. -/
theorem gives_of_readRoutes (h : readRoutes document = .ok routes) :
    List.Forall₂ (Operation.Gives (version document)) (operations document) routes ∧
      (routes.map (·.name)).Nodup := by
  obtain ⟨hsupported, -⟩ := readRoutes_ok h
  obtain ⟨hread, hnodup⟩ := read_of_readRoutes h
  exact ⟨hread.imp fun _ _ hroute => Operation.gives_of_read hsupported hroute, hnodup⟩

/-- Where everything is accepted by itself, only a name that is taken can stop the reading. -/
theorem exists_routes_of_alone
    (hitems : ∀ entry ∈ pathItems document, Succeeds (readRoutes (itemAlone (version document) entry.1 entry.2)))
    (hoperations : ∀ operation ∈ operations document,
      Succeeds (readRoutes (operation.alone (version document)))) (hpaths : pathItems document ≠ []) :
    ∃ routes, List.Forall₂ (Operation.Gives (version document)) (operations document) routes ∧
      readRoutes document = routes.foldlM addRoute [] := by
  obtain ⟨entry, hentry⟩ := List.exists_mem_of_ne_nil _ hpaths
  have hsupported := (opens_of_itemAlone (hitems entry hentry)).1
  have hread : ∀ operation ∈ operations document, Succeeds operation.read := by
    intro operation hmem
    have halone := hoperations operation hmem
    rwa [readRoutes_alone, if_pos hsupported, succeeds_bind_pure] at halone
  obtain ⟨added, hadded, hfold⟩ :=
    addPaths_of_read (fun entry hentry => (opens_of_itemAlone (hitems entry hentry)).2) hread
  refine ⟨added, hadded.imp fun _ _ hroute => Operation.gives_of_read hsupported hroute, ?_⟩
  rw [readRoutes_eq hsupported hpaths, hfold]

/-- **No operation is lost, repeated or renamed onto another.**  The routes of a document are, in its order,
those of its operations taken alone, and all their names differ.  Conversely, where every path item and every
operation is accepted by itself, a name is reported exactly when two operations have it, with the first
operation whose name was taken and the one that had taken it. -/
theorem readRoutes_operations (document : Value) :
    (∀ routes, readRoutes document = .ok routes →
      List.Forall₂ (Operation.Gives (version document)) (operations document) routes ∧
        (routes.map (·.name)).Nodup ∧ (∀ style : Emit.Style, (routes.map style.constantName).Nodup) ∧
        (document.namesDistinct → (routes.map fun route => (route.path, route.method)).Nodup)) ∧
      ((∀ entry ∈ pathItems document, Succeeds (readRoutes (itemAlone (version document) entry.1 entry.2))) →
        (∀ operation ∈ operations document, Succeeds (readRoutes (operation.alone (version document)))) →
        ∃ routes, List.Forall₂ (Operation.Gives (version document)) (operations document) routes ∧
          ((∃ name first second, readRoutes document = .error (.duplicateName name first second)) ↔
            ¬ (routes.map (·.name)).Nodup) ∧
          ∀ name first second, readRoutes document = .error (.duplicateName name first second) →
            FirstTaken routes name first second) := by
  constructor
  · intro routes h
    obtain ⟨hgives, hnodup⟩ := gives_of_readRoutes h
    refine ⟨hgives, hnodup, fun style => nodup_constantNames style hnodup, fun hdistinct => ?_⟩
    rw [places_of_gives hgives]
    exact nodup_operations hdistinct
  · intro hitems hoperations
    by_cases hpaths : pathItems document = []
    · have hnone : operations document = [] := by
        unfold operations
        rw [hpaths]
        rfl
      have hnever := readRoutes_ne_duplicateName hpaths
      rw [hnone]
      refine ⟨[], .nil, ?_, fun name first second h => absurd h (hnever name first second)⟩
      simp [hnever]
    · obtain ⟨routes, hgives, hread⟩ := exists_routes_of_alone hitems hoperations hpaths
      rw [hread]
      exact ⟨routes, hgives, addRoutes_duplicateName routes⟩

/-- A document with two operations, named by these identifiers. -/
def pairDocument (first second : String) : Value :=
  documentOf "3.0.3" [("/a", .obj [("parameters", .arr []), ("get", .obj [("operationId", .str first)])]),
    ("/b", .obj [("get", .obj [("operationId", .str second)])])]

theorem readRoutes_operations_pair :
    (∃ routes, readRoutes (pairDocument "a" "b") = .ok routes ∧ routes.map (·.name) = ["a", "b"] ∧
      List.Forall₂ (Operation.Gives "3.0.3") (operations (pairDocument "a" "b")) routes) ∧
    ∃ routes first second, List.Forall₂ (Operation.Gives "3.0.3") (operations (pairDocument "a" "A")) routes ∧
      readRoutes (pairDocument "a" "A") = .error (.duplicateName "a" first second) ∧
      FirstTaken routes "a" first second := by
  refine ⟨⟨_, rfl, rfl, ((readRoutes_operations (pairDocument "a" "b")).1 _ rfl).1⟩, ?_⟩
  have hitems : ∀ entry ∈ pathItems (pairDocument "a" "A"),
      Succeeds (readRoutes (itemAlone "3.0.3" entry.1 entry.2)) :=
    List.forall_mem_cons.mpr ⟨⟨_, rfl⟩, List.forall_mem_cons.mpr ⟨⟨_, rfl⟩, by simp⟩⟩
  have hoperations : ∀ operation ∈ operations (pairDocument "a" "A"),
      Succeeds (readRoutes (operation.alone "3.0.3")) :=
    List.forall_mem_cons.mpr ⟨⟨_, rfl⟩, List.forall_mem_cons.mpr ⟨⟨_, rfl⟩, by simp⟩⟩
  obtain ⟨routes, hgives, -, htaken⟩ :=
    (readRoutes_operations (pairDocument "a" "A")).2 hitems hoperations
  have herror : ∃ first second,
      readRoutes (pairDocument "a" "A") = .error (.duplicateName "a" first second) := ⟨_, _, rfl⟩
  obtain ⟨first, second, herror⟩ := herror
  exact ⟨routes, first, second, hgives, herror, htaken _ _ _ herror⟩

end ZodRoutes.Document
