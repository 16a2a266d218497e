/-
Where the parameters of a request are carried.
-/
namespace ZodRoutes.Request

/-- A part of a request that carries parameters. -/
inductive Location where
  | path
  | query
  | header
  | body
  deriving DecidableEq

namespace Location

/-- The locations in the order of their buckets. -/
def all : List Location := [path, query, header, body]

/-- The token that documents use. -/
def token : Location → String
  | path => "path"
  | query => "query"
  | header => "header"
  | body => "body"

/-- The location of a token. -/
def ofToken? : String → Option Location
  | "path" => some path
  | "query" => some query
  | "header" => some header
  | "body" => some body
  | _ => none

/-- The name of the bucket that holds the parameters carried there. -/
def bucketName : Location → String
  | path => "params"
  | query => "query"
  | header => "headers"
  | body => "body"

/-- Whether values carried there arrive as text that has to be converted. -/
def isTextual : Location → Bool
  | query => true
  | _ => false

/-- The place in the order of the buckets. -/
def index (location : Location) : Nat := all.idxOf location

/-- A token is read back as its location. -/
@[simp] theorem ofToken?_token (location : Location) : ofToken? location.token = some location := by
  cases location <;> rfl

end Location

/-- The complaint about a token that is no location. -/
def unknownLocationMessage (token : String) : String :=
  "unknown parameter location '" ++ token ++ "' (expected path, query, header or body)"

end ZodRoutes.Request
