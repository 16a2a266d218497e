/-
How a generated module is laid out and named.
-/
namespace ZodRoutes.Emit

/-- The indentation of the members of a constant. -/
inductive Indent where
  | spaces2
  | spaces4
  | tabs
  deriving DecidableEq

namespace Indent

/-- The characters of one indentation. -/
def text : Indent → String
  | spaces2 => "  "
  | spaces4 => "    "
  | tabs => "\t"

/-- The name in configuration files. -/
def name : Indent → String
  | spaces2 => "spaces2"
  | spaces4 => "spaces4"
  | tabs => "tabs"

/-- The indentation of that name in configuration files. -/
def ofName? : String → Option Indent
  | "spaces2" => some spaces2
  | "spaces4" => some spaces4
  | "tabs" => some tabs
  | _ => none

/-- The indentation that a name or a short form of it stands for. -/
def ofShortName? : String → Option Indent
  | "2" => some spaces2
  | "4" => some spaces4
  | "tab" => some tabs
  | name => ofName? name

end Indent

/-- The complaint about a name that is no indentation. -/
def unknownIndentMessage (name : String) : String :=
  "unknown indent style '" ++ name ++ "' (expected spaces2, spaces4 or tabs)"

/-- The characters that end a line. -/
inductive LineEnding where
  | lf
  | crlf
  deriving DecidableEq

namespace LineEnding

/-- The characters that end a line. -/
def text : LineEnding → String
  | lf => "\n"
  | crlf => "\r\n"

/-- The name in configuration files. -/
def name : LineEnding → String
  | lf => "lf"
  | crlf => "crlf"

/-- The line ending of that name in configuration files. -/
def ofName? : String → Option LineEnding
  | "lf" => some lf
  | "crlf" => some crlf
  | _ => none

end LineEnding

/-- The choices that fix the text of a generated module. -/
structure Style where
  indent : Indent
  lineEnding : LineEnding
  /-- What the name of a constant has after the name of its route. -/
  suffix : String
  zodModule : String
  /-- Whether a comment stands above each constant. -/
  docs : Bool
  deriving DecidableEq

/-- Two spaces, line feeds, the suffix `Schema`, the module `zod`, and comments. -/
def Style.default : Style := ⟨.spaces2, .lf, "Schema", "zod", true⟩

end ZodRoutes.Emit
