/-
Reading the parameters and the request bodies of operations.

Parameters of the path are required unless the document says otherwise, others only if it says so; a
parameter without a schema takes any value.  A request body is read from its first JSON media type and
split into one parameter per property, which is required when both the body and the property are.
Nothing is looked up by reference: a reference anywhere is an error.
-/
import ZodRoutes.Document.Error
import ZodRoutes.Schema.Reader
import ZodRoutes.Text.Blank

namespace ZodRoutes.Document

open Json (Value)
open Request (Location Parameter)
open Schema (Kind Node)

/-- The members of a value that has to be an object. -/
def members (value : Value) (part : Part) (field : String) :
    Except DocumentError (List (String × Value)) :=
  match value with
  | .obj members => .ok members
  | _ => .error (.invalidField part field .object)

/-- Refuse a reference. -/
def rejectReference (members : List (String × Value)) (part : Part) : Except DocumentError Unit :=
  match Entries.get? members "$ref" with
  | none => .ok ()
  | some reference =>
    .error (.schema part ⟨.root, .unresolvedRef (Schema.Reader.referenceText reference)⟩)

/-- The text of a field that has to be there. -/
def requiredText (members : List (String × Value)) (field : String) (part : Part) :
    Except DocumentError String :=
  match (Entries.get? members field).bind Value.str? with
  | some text => .ok text
  | none => .error (.missingField part field)

/-- The `required` field, or `default` when it is absent. -/
def requiredFlag (members : List (String × Value)) (default : Bool) (part : Part) :
    Except DocumentError Bool :=
  match Entries.get? members "required" with
  | none => .ok default
  | some (.bool required) => .ok required
  | some _ => .error (.invalidField part "required" .boolean)

/-- Read a schema that stands in a part of the document. -/
def readSchema (schema : Value) (part : Part) : Except DocumentError Node :=
  match Schema.read schema with
  | .ok node => .ok node
  | .error source => .error (.schema part source)

/-- Read one parameter. -/
def readParameter (value : Value) : Except DocumentError Parameter := do
  let fields ← members value .parameter "parameters"
  rejectReference fields .parameter
  let name ← requiredText fields "name" .parameter
  let token ← requiredText fields "in" (.namedParameter name)
  match Location.ofToken? token with
  | none => throw (.unknownLocation name token)
  | some location =>
    let required ← requiredFlag fields (location == .path) (.namedParameter name)
    match Entries.get? fields "schema" with
    | none => return ⟨name, location, required, Kind.any.plain⟩
    | some schema =>
      return ⟨name, location, required, ← readSchema schema (.locatedParameter location name)⟩

/-- Read a list of parameters. -/
def readParameters (value : Value) : Except DocumentError (List Parameter) :=
  match value with
  | .arr items => items.mapM readParameter
  | _ => .error (.invalidField .parameterList "parameters" .array)

/-! ### Bodies -/

/-- Whether a media type, its parameters left out, is JSON or a format built on JSON. -/
def isJson (mediaType : String) : Bool :=
  let essence := Text.trim (String.ofList (mediaType.toList.takeWhile (· ≠ ';')))
  essence == "application/json" || "+json".toList.isSuffixOf essence.toList

/-- One body parameter per property of an object. -/
def bodyFields (bodyRequired : Bool) (properties : Entries Node) (required : List String) :
    List Parameter :=
  properties.map fun (name, schema) => ⟨name, .body, bodyRequired && name ∈ required, schema⟩

/-- Read the parameters that a request body is split into. -/
def readBody (value : Value) : Except DocumentError (List Parameter) := do
  let fields ← members value .requestBody "requestBody"
  rejectReference fields .requestBody
  let bodyRequired ← requiredFlag fields false .requestBody
  match Entries.get? fields "content" with
  | none => throw (.missingField .requestBody "content")
  | some content =>
    let media ← members content .requestBody "content"
    match media.find? fun (mediaType, _) => isJson mediaType with
    | none => return []
    | some (mediaType, body) =>
      match body.get? "schema" with
      | none => return []
      | some schema =>
        let node ← readSchema schema (.bodyContent mediaType)
        match node.kind with
        | .object properties required _ _ => return bodyFields bodyRequired properties required
        | kind => throw (.unsupportedBody (.bodyContent mediaType) kind.name)

end ZodRoutes.Document
