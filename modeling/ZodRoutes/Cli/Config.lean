/-
The configuration of a run.

A configuration says where the module is written and how it looks.  It is read from a TOML document in
which everything may be left out and unknown keys are passed over; a value of the wrong type is refused, and
so is a number beyond its range, under an unknown key too.
What the caller gives for one run takes the place of what the document says.
-/
import ZodRoutes.Cli.Path
import ZodRoutes.Emit.Style
import ZodRoutes.Toml.Reader

namespace ZodRoutes.Cli

open Emit (Indent LineEnding Style)

/-- The name of the configuration file that is looked up by default. -/
def configFile : String := "openapi-zod.toml"

/-- Where the module is written and how it looks. -/
structure Config where
  dir : String
  file : String
  style : Style
  deriving DecidableEq

/-- What a caller gives for one run. -/
structure Overrides where
  dir : Option String
  file : Option String
  suffix : Option String
  zodModule : Option String
  docs : Option Bool

/-- Nothing given. -/
def Overrides.none : Overrides := ⟨.none, .none, .none, .none, .none⟩

namespace Config

/-- The configuration where nothing is said. -/
def default : Config := ⟨"./generated", "schemas.ts", .default⟩

/-- The path of the module. -/
def outputPath (config : Config) : String := Path.join config.dir config.file

/-- The configuration for one run. -/
def override (config : Config) (given : Overrides) : Config :=
  { dir := given.dir.getD config.dir
    file := given.file.getD config.file
    style := { config.style with
      suffix := given.suffix.getD config.style.suffix
      zodModule := given.zodModule.getD config.style.zodModule
      docs := given.docs.getD config.style.docs } }

/-! ### Reading -/

/-- The fields of a section of these names: by name from a table, in order from an array, whose further
elements nobody looks at.  A date or a time has a field too, of none of the names. -/
def fields? (names : List String) : Toml.Value → Option (List (Option Toml.Value))
  | .table _ entries =>
    if Toml.Value.entriesInRange entries then some (names.map (Entries.get? entries)) else none
  | .moment => some (names.map fun _ => none)
  | .array items => some (names.zipIdx.map fun (_, index) => items[index]?)
  | .tables elements =>
    some (names.zipIdx.map fun (_, index) => (elements.reverse[index]?).map (.table .header))
  | _ => none

/-- The fields of a section that may be left out. -/
def section? (names : List String) : Option Toml.Value → Option (List (Option Toml.Value))
  | none => some (names.map fun _ => none)
  | some value => fields? names value

/-- The value of a field through `view`, or `default` when it is left out. -/
def field? {α : Type} (view : Toml.Value → Option α) (default : α) : Option Toml.Value → Option α
  | none => some default
  | some value => view value

/-- The text of a string. -/
def text? : Toml.Value → Option String
  | .text s => some s
  | _ => none

/-- The truth value of a boolean. -/
def flag? : Toml.Value → Option Bool
  | .flag b => some b
  | _ => none

/-- A name out of a fixed list: a string, or a table whose only key it is, with nothing in it. -/
def name? : Toml.Value → Option String
  | .text s => some s
  | .table _ [(name, .table _ [])] => some name
  | .table _ [(name, .array [])] => some name
  | _ => none

/-- The names of the sections. -/
def sections : List String := ["output", "naming", "generator"]

/-- The configuration that the root table of a document describes. -/
def ofTable? (root : Toml.Table) : Option Config := do
  if !Toml.Value.entriesInRange (root.filter (!sections.contains ·.1)) then none
  let output ← section? ["dir", "file"] (Entries.get? root "output")
  let naming ← section? ["schema_suffix"] (Entries.get? root "naming")
  let generator ← section? ["zod_import", "generate_docs", "indent", "line_ending"]
    (Entries.get? root "generator")
  match output, naming, generator with
  | [dir, file], [suffix], [zodModule, docs, indent, lineEnding] =>
    let dir ← field? text? default.dir dir
    let file ← field? text? default.file file
    let suffix ← field? text? default.style.suffix suffix
    let zodModule ← field? text? default.style.zodModule zodModule
    let docs ← field? flag? default.style.docs docs
    let indent ← field? (fun v => (name? v).bind Indent.ofName?) default.style.indent indent
    let lineEnding ←
      field? (fun v => (name? v).bind LineEnding.ofName?) default.style.lineEnding lineEnding
    return ⟨dir, file, ⟨indent, lineEnding, suffix, zodModule, docs⟩⟩
  | _, _, _ => none

/-- The configuration that a TOML text describes; none when the text or a value is refused. -/
def ofToml? (text : String) : Option Config := (Toml.read? text).bind ofTable?

/-- The text of a configuration file that says the defaults, with comments. -/
def template : String :=
  "# openapi-zod configuration file\n" ++
  "\n" ++
  "[output]\n" ++
  "# Output directory for generated TypeScript files\n" ++
  "dir = \"./generated\"\n" ++
  "\n" ++
  "# Output file name\n" ++
  "file = \"schemas.ts\"\n" ++
  "\n" ++
  "[naming]\n" ++
  "# Suffix appended to each route name (e.g., getUserSchema)\n" ++
  "schema_suffix = \"Schema\"\n" ++
  "\n" ++
  "[generator]\n" ++
  "# Module specifier used in `import \x7b z \x7d from \"...\"`\n" ++
  "zod_import = \"zod\"\n" ++
  "\n" ++
  "# Whether to emit a /** GET /path */ comment above each route\n" ++
  "generate_docs = true\n" ++
  "\n" ++
  "# Indentation of route members (spaces2, spaces4, tabs)\n" ++
  "indent = \"spaces2\"\n" ++
  "\n" ++
  "# Line ending of the generated file (lf, crlf)\n" ++
  "line_ending = \"lf\"\n"

end Config

end ZodRoutes.Cli
