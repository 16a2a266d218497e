/-
The expressions of a request by location.

There is one bucket per location, and all four are always there.  A name that is written again keeps its
place in its bucket and takes the last expression.
-/
import ZodRoutes.Request.Parameter

namespace ZodRoutes.Request

open Json (Value)

/-- The expressions of the parameters of one request, by location and name. -/
structure Buckets where
  path : Entries String
  query : Entries String
  header : Entries String
  body : Entries String
  deriving DecidableEq

namespace Buckets

/-- Four empty buckets. -/
def empty : Buckets := ⟨[], [], [], []⟩

/-- The bucket of a location. -/
def bucket (buckets : Buckets) : Location → Entries String
  | .path => buckets.path
  | .query => buckets.query
  | .header => buckets.header
  | .body => buckets.body

/-- Put a bucket in the place of the one of a location. -/
def withBucket (buckets : Buckets) (location : Location) (entries : Entries String) : Buckets :=
  match location with
  | .path => { buckets with path := entries }
  | .query => { buckets with query := entries }
  | .header => { buckets with header := entries }
  | .body => { buckets with body := entries }

/-- Write an expression under a name of a location. -/
def insert (buckets : Buckets) (location : Location) (name expression : String) : Buckets :=
  buckets.withBucket location (Entries.insert (buckets.bucket location) name expression)

/-- The expression under a name of a location. -/
def get? (buckets : Buckets) (location : Location) (name : String) : Option String :=
  Entries.get? (buckets.bucket location) name

/-- The number of expressions in all buckets. -/
def size (buckets : Buckets) : Nat :=
  buckets.path.length + buckets.query.length + buckets.header.length + buckets.body.length

/-- Whether no bucket holds an expression. -/
def isEmpty (buckets : Buckets) : Bool := buckets.size == 0

/-- Write the expression of every parameter, in order; the first that has none ends the writing. -/
def addParameters (buckets : Buckets) : List Parameter → Except ParameterError Buckets
  | [] => .ok buckets
  | p :: rest => do
    let expression ← p.expression
    addParameters (buckets.insert p.location p.name expression) rest

/-- The buckets of a list of parameters. -/
def ofParameters (parameters : List Parameter) : Except ParameterError Buckets :=
  empty.addParameters parameters

/-! ### What a write changes -/

/-- The bucket that was put in place is found there, the others are as they were. -/
theorem bucket_withBucket (buckets : Buckets) (location other : Location)
    (entries : Entries String) :
    (buckets.withBucket location entries).bucket other =
      if other = location then entries else buckets.bucket other := by
  cases location <;> cases other <;> rfl

/-- A write changes the bucket of its location alone. -/
theorem bucket_insert (buckets : Buckets) (location other : Location) (name expression : String) :
    (buckets.insert location name expression).bucket other =
      if other = location then Entries.insert (buckets.bucket location) name expression
      else buckets.bucket other :=
  bucket_withBucket ..

/-! ### JSON -/

/-- A bucket as JSON. -/
def bucketValue (entries : Entries String) : Value :=
  .obj (entries.map fun (name, expression) => (name, .str expression))

/-- The buckets as JSON. -/
def toValue (buckets : Buckets) : Value :=
  .obj (Location.all.map fun location => (location.bucketName, bucketValue (buckets.bucket location)))

/-- The bucket that a JSON value denotes, a repeated name keeping its place. -/
def bucketOfValue? (value : Value) : Option (Entries String) := do
  let members ← value.obj?
  let entries ← members.mapM fun (name, expression) => expression.str?.map (name, ·)
  return Entries.ofList entries

/-- The buckets that a JSON value denotes; none may be missing. -/
def ofValue? (value : Value) : Option Buckets := do
  match ← value.fields? (Location.all.map Location.bucketName) with
  | [some path, some query, some header, some body] =>
    return ⟨← bucketOfValue? path, ← bucketOfValue? query, ← bucketOfValue? header,
      ← bucketOfValue? body⟩
  | _ => none

end Buckets

end ZodRoutes.Request
