/-
Running commands.

A command looks at a tree of files and answers with what it prints, why it fails if it does, and the tree
it leaves.  Everything is read before anything is written, and a command writes one file at most.
-/
import ZodRoutes.Cli.Arguments
import ZodRoutes.Cli.Source
import ZodRoutes.Document.Operations
import ZodRoutes.Emit.Module

namespace ZodRoutes.Cli

open Document (Route)

/-- What a command prints, and why it fails if it does. -/
structure Outcome where
  stdout : String
  error : Option CliError

/-- The exit code of a command. -/
def Outcome.exitCode (outcome : Outcome) : Nat :=
  (outcome.error.map CliError.exitCode).getD 0

/-- The routes of a document, and the text of their module. -/
def generateModule (config : Config) (document : Json.Value) :
    Except CliError (List Route × String) :=
  match Document.readRoutes document with
  | .ok routes => .ok (routes, config.style.moduleText routes)
  | .error source => .error (.document source)

/-- A line of text. -/
def line (text : String) : String := text ++ "\n"

/-- The line above and below a module that is only shown. -/
def ruler : String := line (String.ofList (List.replicate 60 '─'))

/-- What is reported on the routes of a module. -/
def routeReport (config : Config) (routes : List Route) : String :=
  line ("  Generated " ++ toString routes.length ++ " route schema(s)") ++
    Text.joined "" (routes.map fun route =>
      line ("    " ++ config.style.constantName route ++ " " ++ route.label))

/-- What is reported on the writing of a module. -/
def writeReport (path : String) : Written → String
  | .written bytes => line ("✓ Written " ++ toString bytes ++ " bytes to " ++ path)
  | .unchanged => line ("✓ " ++ path ++ " is up-to-date")
  | .preview text => line ("[dry-run] Would write to " ++ path ++ ":") ++ ruler ++ text ++ ruler

/-- Write the module of a document that is loaded with its configuration, after `printed`. -/
def writeRoutes (config : Config) (dryRun : Bool) (tree : FileTree) (printed : String)
    (routes : List Route) (text : String) : Outcome × FileTree :=
  let printed := printed ++ routeReport config routes
  match writeModule dryRun tree config.outputPath text with
  | (.ok written, tree) => (⟨printed ++ writeReport config.outputPath written, none⟩, tree)
  | (.error source, tree) => (⟨printed, some (.write source)⟩, tree)

/-- The configuration of a run of `generate`. -/
def generateConfig (tree : FileTree) (output file config : Option String) :
    Except ConfigError Config := do
  return (← loadConfig tree config).override { Overrides.none with dir := output, file := file }

/-- Write the module of a document, or show it. -/
def runGenerate (tree : FileTree) (input : String) (output file : Option String) (dryRun : Bool)
    (config : Option String) : Outcome × FileTree :=
  match generateConfig tree output file config with
  | .error source => (⟨"", some (.config source)⟩, tree)
  | .ok config =>
    let printed := line ("Reading " ++ input)
    match loadDocument tree input with
    | .error source => (⟨printed, some (.load source)⟩, tree)
    | .ok document =>
      let printed := printed ++ line "Generating Zod schemas..."
      match generateModule config document with
      | .error e => (⟨printed, some e⟩, tree)
      | .ok (routes, text) => writeRoutes config dryRun tree printed routes text

/-- Write a configuration file. -/
def runInit (tree : FileTree) (output : String) (force : Bool) : Outcome × FileTree :=
  if tree.isThere output && !force then
    (⟨"", some (.config (.alreadyExists output))⟩, tree)
  else match tree.write? output Config.template with
    | none => (⟨"", some .file⟩, tree)
    | some tree => (⟨line ("✓ Created configuration file: " ++ output), none⟩, tree)

/-- The text of a module to compare with. -/
def writtenModule (tree : FileTree) (path : String) : Except CliError String :=
  if tree.isThere path then
    match tree.read? path with
    | some text => .ok text
    | none => .error .file
  else .error (.stale (.notFound path))

/-- The text that a document generates. -/
def generatedText (tree : FileTree) (input : String) (config : Option String) :
    Except CliError String :=
  match loadConfig tree config with
  | .error source => .error (.config source)
  | .ok config =>
    match loadDocument tree input with
    | .error source => .error (.load source)
    | .ok document => (generateModule config document).map Prod.snd

/-- Compare a module with what a document generates; blanks around it do not count. -/
def runValidate (tree : FileTree) (path input : String) (config : Option String) : Outcome :=
  let printed := line "Validating schemas..."
  match writtenModule tree path with
  | .error e => ⟨printed, some e⟩
  | .ok written =>
    match generatedText tree input config with
    | .error e => ⟨printed, some e⟩
    | .ok generated =>
      if Text.trim written == Text.trim generated then
        ⟨printed ++ line "✓ Schemas are up-to-date", none⟩
      else
        ⟨printed ++ line "✗ Schemas are out of date" ++
          line "  Run 'openapi-zod generate' to update", some (.stale .outOfDate)⟩

/-- Run a command on a tree of files. -/
def Command.run (tree : FileTree) : Command → Outcome × FileTree
  | generate input output file dryRun config => runGenerate tree input output file dryRun config
  | init output force => runInit tree output force
  | validate path input config => (runValidate tree path input config, tree)

/-- The paths that a command reads, but for the module it may write. -/
def Command.sources : Command → List String
  | generate input _ _ _ config => [config.getD configFile, input]
  | init output _ => [output]
  | validate path input config => [path, config.getD configFile, input]

/-- The path that a command may write. -/
def Command.target? (tree : FileTree) : Command → Option String
  | generate _ output file _ config =>
    (generateConfig tree output file config).toOption.map Config.outputPath
  | init output _ => some output
  | validate _ _ _ => none

end ZodRoutes.Cli
