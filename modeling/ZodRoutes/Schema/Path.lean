/-
Places inside a schema.

A place is the list of segments that lead to it from the root.  It is printed as a JSON pointer: `#`, then
every segment after a slash, with `~` written `~0` and `/` written `~1` so that no segment can end early.
-/
namespace ZodRoutes.Schema

/-- The segments that lead from the root of a schema to a place in it. -/
structure Path where
  /-- The segments, outermost first. -/
  segments : List String
  deriving DecidableEq

namespace Path

/-- The root of a schema. -/
def root : Path := ⟨[]⟩

/-- The place one segment further down. -/
def join (path : Path) (segment : String) : Path :=
  ⟨path.segments ++ [segment]⟩

/-- The place at an index below a keyword. -/
def joinIndex (path : Path) (keyword : String) (index : Nat) : Path :=
  (path.join keyword).join (toString index)

/-- A character of a segment as it is printed. -/
def escapedChar (c : Char) : List Char :=
  if c = '~' then ['~', '0'] else if c = '/' then ['~', '1'] else [c]

/-- A segment as it is printed, after its slash. -/
def segmentText (segment : String) : List Char :=
  '/' :: segment.toList.flatMap escapedChar

/-- The printed place. -/
def text (path : Path) : String :=
  String.ofList ('#' :: path.segments.flatMap segmentText)

end Path

end ZodRoutes.Schema
