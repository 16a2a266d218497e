/-
HTTP methods as the keys of a path item.

A path item mixes operations with other fields; the lower-case method tokens, exactly as they are, tell
the operations apart.
-/
namespace ZodRoutes.Http

/-- A method that an operation may be declared for. -/
inductive Method where
  | get
  | post
  | put
  | delete
  | patch
  | options
  | head
  deriving DecidableEq

namespace Method

/-- The methods in their usual order. -/
def all : List Method := [get, post, put, delete, patch, options, head]

/-- The lower-case token. -/
def token : Method → String
  | get => "get"
  | post => "post"
  | put => "put"
  | delete => "delete"
  | patch => "patch"
  | options => "options"
  | head => "head"

/-- The method of a token; no letter case is folded. -/
def ofToken? : String → Option Method
  | "get" => some get
  | "post" => some post
  | "put" => some put
  | "delete" => some delete
  | "patch" => some patch
  | "options" => some options
  | "head" => some head
  | _ => none

/-- The token in capitals. -/
def label (method : Method) : String := method.token.toUpper

/-- The place in the usual order. -/
def index (method : Method) : Nat := all.idxOf method

/-- A token is read back as its method. -/
@[simp] theorem ofToken?_token (method : Method) : ofToken? method.token = some method := by
  cases method <;> rfl

end Method

/-- The complaint about a token that is no method. -/
def unknownMethodMessage (token : String) : String :=
  "'" ++ token ++ "' is not a recognized HTTP method"

end ZodRoutes.Http
