/-
Why a command fails.

What a parser or the operating system has to say about a failure is not part of the message: the message
ends where theirs would begin.
-/
import ZodRoutes.Document.Error

namespace ZodRoutes.Cli

/-- Why a document cannot be loaded. -/
inductive LoadError where
  | notFound (path : String)
  | unsupportedFormat (path : String)
  | invalidJson (path : String)
  | invalidYaml (path : String)
  | unreadable (path : String)
  deriving DecidableEq

/-- The error in words. -/
def LoadError.message : LoadError → String
  | notFound path => "Document not found: " ++ path
  | unsupportedFormat path =>
    "Unsupported document format: " ++ path ++ " (expected .json, .yaml or .yml)"
  | invalidJson path => "Invalid JSON in " ++ path
  | invalidYaml path => "Invalid YAML in " ++ path
  | unreadable path => "Failed to read " ++ path

/-- Why there is no configuration. -/
inductive ConfigError where
  | alreadyExists (path : String)
  | invalidToml (path : String)
  | unreadable (path : String)
  deriving DecidableEq

/-- The error in words. -/
def ConfigError.message : ConfigError → String
  | alreadyExists path =>
    "Configuration file already exists: " ++ path ++ " (use --force to overwrite)"
  | invalidToml path => "Invalid TOML in " ++ path
  | unreadable path => "Failed to read config " ++ path

/-- Why a module cannot be written. -/
inductive WriteError where
  | createDirectory (path : String)
  | writeFile (path : String)
  deriving DecidableEq

/-- The error in words. -/
def WriteError.message : WriteError → String
  | createDirectory path => "Failed to create directory " ++ path
  | writeFile path => "Failed to write file " ++ path

/-- Why a written module is not what the document generates. -/
inductive Staleness where
  | notFound (path : String)
  | outOfDate
  deriving DecidableEq

/-- The error in words. -/
def Staleness.message : Staleness → String
  | notFound path => "Schema file not found: " ++ path
  | outOfDate => "Schemas are out of date"

/-- Why a command fails. -/
inductive CliError where
  | load (source : LoadError)
  | document (source : Document.DocumentError)
  | config (source : ConfigError)
  | write (source : WriteError)
  | stale (source : Staleness)
  /-- A file cannot be read or written where nothing more is known about it. -/
  | file

namespace CliError

/-- The error in words. -/
def message : CliError → String
  | load source => "Failed to load document: " ++ source.message
  | document source => "Failed to generate schemas: " ++ source.message
  | config source => "Failed to load configuration: " ++ source.message
  | write source => "Failed to write output: " ++ source.message
  | stale source => "Validation failed: " ++ source.message
  | file => "IO error"

/-- The exit code: two for a module that is out of date, else one. -/
def exitCode : CliError → Nat
  | stale _ => 2
  | _ => 1

end CliError

end ZodRoutes.Cli
