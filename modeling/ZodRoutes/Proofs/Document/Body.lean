/-
A JSON body is split without loss.

The body is read from the first entry of `content` with a JSON media type, and what happens then depends on the schema
of that entry alone: without one there is nothing to split, a schema that is not read gives its error, and one that
is read as an object gives one parameter for each entry of `properties`.  What the schema of a property gives does not
depend on the place at which it is read, so it is read as if it stood alone; and whether a parameter is required is
told by two flags, that of the body and that of the schema.
-/
import ZodRoutes.Proofs.Document.Routes
import ZodRoutes.Proofs.Schema.ObjectForm

namespace ZodRoutes.Document

open Json (Value)
open Request (Location Parameter)
open Schema (Kind Node ObjectForm composites)
open Schema.Reader (Members)

/-! ### Media types -/

/-- A media type without its parameters and the blanks around it. -/
def essence (mediaType : String) : String :=
  Text.trim (String.ofList (mediaType.toList.takeWhile (· ≠ ';')))

/-- The media type is JSON, or a format built on JSON. -/
def IsJsonType (mediaType : String) : Prop :=
  essence mediaType = "application/json" ∨ ∃ front, essence mediaType = front ++ "+json"

theorem isJson_iff {mediaType : String} : isJson mediaType ↔ IsJsonType mediaType := by
  show (essence mediaType == "application/json" || "+json".toList.isSuffixOf (essence mediaType).toList) ↔ _
  rw [Bool.or_eq_true, beq_iff_eq, List.isSuffixOf_iff_suffix]
  refine or_congr_right ⟨?_, ?_⟩
  · rintro ⟨front, hfront⟩
    refine ⟨String.ofList front, String.toList_injective ?_⟩
    rw [String.toList_append, String.toList_ofList, hfront]
  · rintro ⟨front, hfront⟩
    rw [hfront, String.toList_append]
    exact List.suffix_append _ _

/-- The first entry with a JSON media type is the one that is looked at. -/
theorem find?_isJson {front back : List (String × Value)} {mediaType : String} {body : Value}
    (hfront : ∀ entry ∈ front, ¬ IsJsonType entry.1) (hjson : IsJsonType mediaType) :
    (front ++ (mediaType, body) :: back).find? (fun entry => isJson entry.1) = some (mediaType, body) := by
  refine List.find?_eq_some_iff_append.mpr ⟨isJson_iff.mpr hjson, front, back, rfl, ?_⟩
  intro entry hentry
  have hother := mt isJson_iff.mp (hfront entry hentry)
  simpa using hother

/-! ### The entry that is looked at -/

/-- What the entry of a media type gives, the body being required or not. -/
def readContent (bodyRequired : Bool) (mediaType : String) (body : Value) : Except DocumentError (List Parameter) :=
  match body.get? "schema" with
  | none => .ok []
  | some schema => do
    let node ← readSchema schema (.bodyContent mediaType)
    match node.kind with
    | .object properties required _ _ => return bodyFields bodyRequired properties required
    | kind => throw (.unsupportedBody (.bodyContent mediaType) kind.name)

variable {fields : Members} {media : List (String × Value)} {bodyRequired : Bool} {mediaType : String} {body : Value}

/-- A flag that is absent or a boolean is read. -/
theorem requiredFlag_ok (hrequired : ∀ value, Entries.get? fields "required" = some value → ∃ b, value = .bool b)
    (part : Part) : ∃ flag : Bool, requiredFlag fields false part = .ok flag ∧
      (flag ↔ Entries.get? fields "required" = some (.bool true)) := by
  unfold requiredFlag
  cases hget : Entries.get? fields "required" with
  | none => exact ⟨false, rfl, by simp⟩
  | some value =>
      obtain ⟨b, rfl⟩ := hrequired value hget
      exact ⟨b, rfl, by simp⟩

/-- A body without a fault of its own is read from the entry that is looked at. -/
theorem readBody_eq (hreference : Entries.get? fields "$ref" = none)
    (hrequired : requiredFlag fields false .requestBody = .ok bodyRequired)
    (hcontent : Entries.get? fields "content" = some (.obj media)) :
    readBody (.obj fields) =
      match media.find? fun entry => isJson entry.1 with
      | none => .ok []
      | some (mediaType, body) => readContent bodyRequired mediaType body := by
  unfold readBody
  show (rejectReference fields .requestBody >>= _) = _
  rw [rejectReference_eq_ok.mpr hreference]
  show (requiredFlag fields false .requestBody >>= _) = _
  rw [hrequired]
  show (match Entries.get? fields "content" with | none => _ | some content => _) = _
  rw [hcontent]
  rfl

/-! ### The fields of an object -/

/-- The parameters that a body is split into: one for each property of its schema, in order. -/
structure Split (fields members : Members) (ps : List Parameter) : Prop where
  each : List.Forall₂ (fun (property : String × Value) (p : Parameter) =>
    p.name = property.1 ∧ p.location = .body ∧ Schema.read property.2 = .ok p.schema ∧
      (p.required ↔ Entries.get? fields "required" = some (.bool true) ∧
        property.1 ∈ Schema.Meaning.required members)) (Schema.Meaning.properties members) ps
  distinct : (ps.map Parameter.name).Nodup

theorem split_bodyFields {members : Members} {properties : Entries Node} {required : List String}
    {additional : Option Node} {closed : Bool} (h : ObjectForm members properties required additional closed)
    (hflag : bodyRequired ↔ Entries.get? fields "required" = some (.bool true)) :
    Split fields members (bodyFields bodyRequired properties required) := by
  refine ⟨?_, ?_⟩
  · have hnamed : ∀ property ∈ Schema.Meaning.properties members, property.1 ∈ Entries.names properties := by
      intro property hproperty
      rw [h.read.names_eq]
      exact List.mem_map_of_mem hproperty
    unfold bodyFields
    rw [List.forall₂_map_right_iff]
    refine ((List.forall₂_and_left _ _).mpr ⟨hnamed, h.read⟩).imp ?_
    rintro ⟨name, schema⟩ ⟨name', node⟩ ⟨hmem, hname, hread⟩
    dsimp only at hmem hname hread
    subst hname
    refine ⟨rfl, rfl, hread, ?_⟩
    simp only [Bool.and_eq_true, decide_eq_true_eq, hflag, h.required, List.mem_filter, hmem, true_and]
  · have hnames : (bodyFields bodyRequired properties required).map Parameter.name = Entries.names properties := by
      unfold bodyFields Entries.names
      rw [List.map_map]
      rfl
    rw [hnames]
    exact h.distinct

/-! ### What a body is read as -/

/-- What a body is read as, by the schema of the entry that is looked at. -/
structure BodyOutcome (fields : Members) (mediaType : String) (body : Value)
    (result : Except DocumentError (List Parameter)) : Prop where
  nothing : body.get? "schema" = none → result = .ok []
  rejected : ∀ schema source, body.get? "schema" = some schema → Schema.read schema = .error source →
    result = .error (.schema (.bodyContent mediaType) source)
  split : ∀ schema node properties required additional closed, body.get? "schema" = some schema →
    Schema.read schema = .ok node → node.kind = .object properties required additional closed →
      ∃ members ps, schema = .obj members ∧ result = .ok ps ∧ Split fields members ps
  unsupported : ∀ schema node, body.get? "schema" = some schema → Schema.read schema = .ok node →
    (∀ properties required additional closed, node.kind ≠ .object properties required additional closed) →
      result = .error (.unsupportedBody (.bodyContent mediaType) node.kind.name)
  /-- An object that is combined with other schemas is no object any more. -/
  combined : ∀ members keyword node, body.get? "schema" = some (.obj members) → keyword ∈ composites →
    Entries.has members keyword → Schema.read (.obj members) = .ok node →
      result = .error (.unsupportedBody (.bodyContent mediaType) node.kind.name)

/-- Only an object is split. -/
theorem readContent_unsupported {schema : Value} {node : Node} (hschema : body.get? "schema" = some schema)
    (hread : Schema.read schema = .ok node)
    (hkind : ∀ properties required additional closed, node.kind ≠ .object properties required additional closed) :
    readContent bodyRequired mediaType body =
      .error (.unsupportedBody (.bodyContent mediaType) node.kind.name) := by
  unfold readContent readSchema
  rw [hschema]
  dsimp only
  rw [hread]
  show (match node.kind with | .object properties required _ _ => _ | kind => _) = _
  split
  · next hobject => exact absurd hobject (hkind _ _ _ _)
  · rfl

theorem readContent_outcome (hflag : bodyRequired ↔ Entries.get? fields "required" = some (.bool true)) :
    BodyOutcome fields mediaType body (readContent bodyRequired mediaType body) := by
  refine ⟨?_, ?_, ?_, fun _ _ => readContent_unsupported, ?_⟩
  · intro hschema
    rw [readContent, hschema]
  · intro schema source hschema hread
    unfold readContent readSchema
    rw [hschema]
    dsimp only
    rw [hread]
    rfl
  · intro schema node properties required additional closed hschema hread hkind
    obtain ⟨members, rfl, hform, -⟩ := Schema.objectForm_of_readAt hread hkind
    refine ⟨members, _, rfl, ?_, split_bodyFields hform hflag⟩
    unfold readContent readSchema
    rw [hschema]
    dsimp only
    rw [hread]
    show (match node.kind with | .object properties required _ _ => _ | kind => _) = _
    rw [hkind]
    rfl
  · intro members keyword node hschema hkeyword hhas hread
    refine readContent_unsupported hschema hread fun properties required additional closed hkind => ?_
    obtain ⟨members', heq, -, habsent⟩ := Schema.objectForm_of_readAt hread hkind
    cases heq
    rw [Entries.has, habsent keyword hkeyword] at hhas
    cases hhas

/-- **A JSON body is split without loss.**  Of a body that is no reference, whose `required` is a boolean if it is
there, and whose `content` is an object, the first entry with a JSON media type is looked at.  Without one there is
nothing; else its schema decides, and an object gives one parameter for each property, in order. -/
theorem readBody_splits (hreference : Entries.get? fields "$ref" = none)
    (hrequired : ∀ value, Entries.get? fields "required" = some value → ∃ b, value = .bool b)
    (hcontent : Entries.get? fields "content" = some (.obj media)) :
    ((∀ entry ∈ media, ¬ IsJsonType entry.1) → readBody (.obj fields) = .ok []) ∧
      ∀ front mediaType body back, media = front ++ (mediaType, body) :: back →
        (∀ entry ∈ front, ¬ IsJsonType entry.1) → IsJsonType mediaType →
          BodyOutcome fields mediaType body (readBody (.obj fields)) := by
  obtain ⟨flag, hread, hflag⟩ := requiredFlag_ok hrequired .requestBody
  have heq := readBody_eq hreference hread hcontent
  refine ⟨fun hnone => ?_, ?_⟩
  · have hfind : media.find? (fun entry => isJson entry.1) = none := by
      refine List.find?_eq_none.mpr fun entry hentry => ?_
      exact mt isJson_iff.mp (hnone entry hentry)
    rw [heq, hfind]
  · rintro front mediaType body back rfl hfront hjson
    rw [heq, find?_isJson hfront hjson]
    exact readContent_outcome hflag

/-- An order: a note, and a number that has to be there. -/
def orderSchema : Members :=
  [("type", .str "object"), ("required", .arr [.str "id"]),
    ("properties", .obj [("note", .obj [("type", .str "string")]), ("id", .obj [("type", .str "integer")])])]

/-- A required body that is an order, in XML or in a format built on JSON. -/
def orderBody : Members :=
  [("required", .bool true), ("content", .obj [("application/xml", .obj []),
    ("application/vnd.order+json ; charset=utf-8", .obj [("schema", .obj orderSchema)])])]

theorem readBody_splits_order : ∃ ps, readBody (.obj orderBody) = .ok ps ∧ Split orderBody orderSchema ps ∧
    ps.map (fun p => (p.name, p.required)) = [("note", false), ("id", true)] := by
  have hxml : ¬ IsJsonType "application/xml" := mt isJson_iff.mpr (by decide)
  have hjson : IsJsonType "application/vnd.order+json ; charset=utf-8" := isJson_iff.mp (by decide)
  have hrequired : ∀ value, Entries.get? orderBody "required" = some value → ∃ b, value = .bool b :=
    fun value hvalue => ⟨true, (Option.some.inj hvalue).symm⟩
  have hread : Schema.read (.obj orderSchema) = .ok
      (Kind.object [("note", Kind.string.plain), ("id", Kind.integer.plain)] ["id"] none false).plain := rfl
  have houtcome := (readBody_splits rfl hrequired rfl).2 [("application/xml", .obj [])] _ _ [] rfl
    (by simpa using hxml) hjson
  obtain ⟨members, ps, hmembers, hps, hsplit⟩ := houtcome.split _ _ _ _ _ _ rfl hread rfl
  cases hmembers
  refine ⟨ps, hps, hsplit, ?_⟩
  have hfields : readBody (.obj orderBody) =
      .ok [⟨"note", .body, false, Kind.string.plain⟩, ⟨"id", .body, true, Kind.integer.plain⟩] := rfl
  rw [hfields] at hps
  cases hps
  rfl

end ZodRoutes.Document
