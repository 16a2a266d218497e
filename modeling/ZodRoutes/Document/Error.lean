/-
What can be wrong with a document.

Each error names the part of the document it was met in.  Errors of schemas and of parameters are kept as
they are, so that the place inside the schema is not lost.
-/
import ZodRoutes.Request.Parameter

namespace ZodRoutes.Document

open Request (Location ParameterError)
open Schema (SchemaError)

/-- A part of a document. -/
inductive Part where
  | document
  | pathItem (path : String)
  | operation (label : String)
  | parameterList
  /-- A parameter whose name is not known. -/
  | parameter
  | namedParameter (name : String)
  | locatedParameter (location : Location) (name : String)
  | requestBody
  | bodyContent (mediaType : String)
  deriving DecidableEq

/-- The part in words. -/
def Part.text : Part → String
  | document => "document"
  | pathItem path => "path '" ++ path ++ "'"
  | operation label => label
  | parameterList => "parameters"
  | parameter => "parameter"
  | namedParameter name => "parameter '" ++ name ++ "'"
  | locatedParameter location name => location.token ++ " parameter '" ++ name ++ "'"
  | requestBody => "requestBody"
  | bodyContent mediaType => "requestBody '" ++ mediaType ++ "'"

/-- What the value of a field should have been. -/
inductive Expected where
  | object
  | array
  | boolean
  deriving DecidableEq

/-- The expectation in words. -/
def Expected.message : Expected → String
  | object => "expected an object"
  | array => "expected an array"
  | boolean => "expected a boolean"

/-- What is wrong with a document. -/
inductive DocumentError where
  | unsupportedVersion (version : String)
  /-- A parameter is carried in no known location. -/
  | unknownLocation (name token : String)
  /-- A field that has to be there is not, or has no text. -/
  | missingField (part : Part) (field : String)
  | invalidField (part : Part) (field : String) (expected : Expected)
  /-- A schema, or a reference that was not resolved. -/
  | schema (part : Part) (source : SchemaError)
  /-- The expression of a parameter of an operation. -/
  | params (label : String) (source : ParameterError)
  /-- A body that has no fields; the kind of its schema. -/
  | unsupportedBody (part : Part) (kind : String)
  | duplicateName (name first second : String)

/-- The error in words. -/
def DocumentError.message : DocumentError → String
  | unsupportedVersion version =>
    "OpenAPI version '" ++ version ++ "' not supported (expected 3.x)"
  | unknownLocation name token =>
    "parameter '" ++ name ++ "': " ++ Request.unknownLocationMessage token
  | missingField part field => part.text ++ " is missing '" ++ field ++ "'"
  | invalidField part field expected =>
    "invalid '" ++ field ++ "' in " ++ part.text ++ ": " ++ expected.message
  | schema part source => part.text ++ ": " ++ source.message
  | params label source => label ++ ": " ++ source.message
  | unsupportedBody part kind => part.text ++ ": body schema must be an object, found " ++ kind
  | duplicateName name first second =>
    "operations '" ++ first ++ "' and '" ++ second ++ "' both generate '" ++ name ++ "'"

end ZodRoutes.Document
