/-
Loading documents and configurations, and writing modules.

The format of a document shows in the extension of its path.  A configuration file that is not there
stands for the defaults.  A module is written only when its file does not hold the same text already, and
the directories above it are made if they are not there.
-/
import ZodRoutes.Cli.Config
import ZodRoutes.Cli.Error
import ZodRoutes.Cli.FileTree
import ZodRoutes.Json.Reader
import ZodRoutes.Yaml.Node

namespace ZodRoutes.Cli

/-- The formats that documents are written in. -/
inductive SourceFormat where
  | json
  | yaml
  deriving DecidableEq

namespace SourceFormat

/-- The name of a format. -/
def name : SourceFormat → String
  | json => "json"
  | yaml => "yaml"

/-- The format of a document at a path, by its extension in either letter case. -/
def ofPath? (path : String) : Option SourceFormat :=
  match (Path.extension? path).map String.toLower with
  | some "json" => some json
  | some "yaml" => some yaml
  | some "yml" => some yaml
  | _ => none

/-- Read the text of a document that stands at a path. -/
def parse (format : SourceFormat) (path text : String) : Except LoadError Json.Value :=
  match format with
  | json => (Json.read? text).elim (.error (.invalidJson path)) .ok
  | yaml => (Yaml.read? text).elim (.error (.invalidYaml path)) .ok

end SourceFormat

/-- Load the document at a path. -/
def loadDocument (tree : FileTree) (path : String) : Except LoadError Json.Value :=
  if tree.isThere path then
    match SourceFormat.ofPath? path with
    | none => .error (.unsupportedFormat path)
    | some format =>
      match tree.read? path with
      | none => .error (.unreadable path)
      | some text => format.parse path text
  else .error (.notFound path)

/-- Read the text of a configuration that stands at a path. -/
def parseConfig (path text : String) : Except ConfigError Config :=
  (Config.ofToml? text).elim (.error (.invalidToml path)) .ok

/-- Load the configuration at a path, or at the default path when none is given. -/
def loadConfig (tree : FileTree) (path : Option String) : Except ConfigError Config :=
  let path := path.getD configFile
  if tree.isThere path then
    match tree.read? path with
    | none => .error (.unreadable path)
    | some text => parseConfig path text
  else .ok .default

/-! ### Writing -/

/-- What became of a text that was to be written. -/
inductive Written where
  /-- It was written; its size in bytes. -/
  | written (bytes : Nat)
  | unchanged
  /-- Nothing was to be written in fact; the text. -/
  | preview (text : String)
  deriving DecidableEq

/-- Make the directories above a path, if the one it is in is not there. -/
def makeParents (tree : FileTree) (path : String) : Except WriteError Unit × FileTree :=
  match Path.parent? path with
  | none => (.ok (), tree)
  | some parent =>
    if parent.isEmpty || tree.isThere parent then (.ok (), tree)
    else match tree.withDirectories parent with
      | (true, tree) => (.ok (), tree)
      | (false, tree) => (.error (.createDirectory parent), tree)

/-- Write a text to a path, unless it is only a preview or the file holds the text already. -/
def writeModule (preview : Bool) (tree : FileTree) (path text : String) :
    Except WriteError Written × FileTree :=
  if preview then (.ok (.preview text), tree)
  else if tree.read? path == some text then (.ok .unchanged, tree)
  else match makeParents tree path with
    | (.error e, tree) => (.error e, tree)
    | (.ok _, tree) =>
      match tree.write? path text with
      | some tree => (.ok (.written text.utf8ByteSize), tree)
      | none => (.error (.writeFile path), tree)

end ZodRoutes.Cli
