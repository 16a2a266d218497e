/-
Generated modules.

A module is a banner, one import, and one exported constant per route with an object schema for each
bucket.  The comment above a constant holds the label and the words of the summary; the end mark of a
comment inside it is broken up, so the comment ends where it should.
-/
import ZodRoutes.Document.Route
import ZodRoutes.Emit.Style
import ZodRoutes.Text.Blank

namespace ZodRoutes.Emit

open Document (Route)
open Request (Location)

/-- The first line of every module. -/
def banner : String :=
  "// This file was generated by openapi-zod. Do not edit it by hand."

/-- The name of the constant of a route. -/
def Style.constantName (style : Style) (route : Route) : String :=
  route.name ++ style.suffix

/-- A text with a backslash inside every end mark of a comment. -/
def brokenEndMarks : List Char → List Char
  | '*' :: '/' :: rest => '*' :: '\\' :: '/' :: brokenEndMarks rest
  | c :: rest => c :: brokenEndMarks rest
  | [] => []

/-- What the comment above a constant says. -/
def docText (route : Route) : String :=
  match (route.summary.map Text.words).getD [] with
  | [] => route.label
  | words => route.label ++ " - " ++ Text.joined " " words

/-- The comment above a constant. -/
def docComment (route : Route) : String :=
  "/** " ++ String.ofList (brokenEndMarks (docText route).toList) ++ " */"

/-- The line of one bucket. -/
def Style.bucketLine (style : Style) (route : Route) (location : Location) : String :=
  style.indent.text ++ location.bucketName ++ ": " ++
    (Zod.Expr.object (route.params.bucket location)).text ++ ","

/-- The lines of a route. -/
def Style.routeLines (style : Style) (route : Route) : List String :=
  (if style.docs then [docComment route] else []) ++
    ["export const " ++ style.constantName route ++ " = \x7b"] ++
    Location.all.map (style.bucketLine route) ++ ["\x7d;"]

/-- The text of a route, without a line ending after its last line. -/
def Style.routeText (style : Style) (route : Route) : String :=
  Text.joined style.lineEnding.text (style.routeLines route)

/-- The line that imports `z`. -/
def Style.importLine (style : Style) : String :=
  "import \x7b z \x7d from " ++ Text.quoted style.zodModule ++ ";"

/-- The lines of a module: banner, import, and an empty line before each route. -/
def Style.moduleLines (style : Style) (routes : List Route) : List String :=
  banner :: style.importLine :: routes.flatMap fun route => "" :: style.routeLines route

/-- The text of a module; every line has its ending. -/
def Style.moduleText (style : Style) (routes : List Route) : String :=
  Text.joined "" ((style.moduleLines routes).map (· ++ style.lineEnding.text))

end ZodRoutes.Emit
