/-
Reading the arguments of a command line.

An option is given by its long name or by a letter; letters can be run together, the last of them taking
what follows as its value.  A value is behind an equals sign, directly behind the letter, or the next
argument, which then must not look like an option.  No option but `--verbose` may be given twice, nothing
but options may follow the name of a command, and no path may be empty.
-/
namespace ZodRoutes.Cli

/-- An option: its long name, its letter, and whether it takes a value. -/
structure OptionSpec where
  long : String
  letter : Option Char
  takesValue : Bool

/-- An option as it was given, with its value. -/
abbrev Given := String × Option String

namespace OptionSpec

/-- The option that counts how much is reported. -/
def verbose : OptionSpec := ⟨"verbose", some 'v', false⟩

/-- The options of `generate`. -/
def generate : List OptionSpec :=
  [⟨"input", some 'i', true⟩, ⟨"output", some 'o', true⟩, ⟨"file", some 'f', true⟩,
    ⟨"dry-run", none, false⟩, ⟨"config", some 'c', true⟩, verbose]

/-- The options of `init`. -/
def init : List OptionSpec := [⟨"output", some 'o', true⟩, ⟨"force", none, false⟩, verbose]

/-- The options of `validate`. -/
def validate : List OptionSpec :=
  [⟨"path", some 'p', true⟩, ⟨"input", some 'i', true⟩, ⟨"config", some 'c', true⟩, verbose]

end OptionSpec

/-- The options of one argument, and the one that waits for the next argument as its value. -/
abbrev Found := List Given × Option String

/-- The options of an argument of long form, without its dashes. -/
def longOption? (specs : List OptionSpec) (text : List Char) : Option Found := do
  let name := text.takeWhile (· != '=')
  let spec ← specs.find? fun spec => spec.long == String.ofList name
  match text.drop name.length, spec.takesValue with
  | '=' :: value, true => return ([(spec.long, some (String.ofList value))], none)
  | '=' :: _, false => none
  | _, true => return ([], some spec.long)
  | _, false => return ([(spec.long, none)], none)

/-- The options of an argument of letters, without its dash. -/
def letterOptions? (specs : List OptionSpec) : List Char → Option Found
  | [] => some ([], none)
  | letter :: rest => do
    let spec ← specs.find? fun spec => spec.letter == some letter
    if spec.takesValue then
      match rest with
      | [] => return ([], some spec.long)
      | '=' :: value => return ([(spec.long, some (String.ofList value))], none)
      | value => return ([(spec.long, some (String.ofList value))], none)
    else
      let (found, waiting) ← letterOptions? specs rest
      return ((spec.long, none) :: found, waiting)

/-- Whether an argument looks like an option: a dash with something behind it. -/
def looksLikeOption (arg : String) : Bool :=
  match arg.toList with
  | '-' :: _ :: _ => true
  | _ => false

/-- The options of one argument. -/
def optionsOf? (specs : List OptionSpec) (arg : String) : Option Found :=
  match arg.toList with
  | '-' :: '-' :: text => longOption? specs text
  | '-' :: letter :: rest => letterOptions? specs (letter :: rest)
  | _ => none

/-- The options of a list of arguments, in order; two dashes alone may stand at the end. -/
def options? (specs : List OptionSpec) : List String → Option (List Given)
  | [] => some []
  | arg :: rest =>
    if arg == "--" then (if rest.isEmpty then some [] else none)
    else match optionsOf? specs arg, rest with
      | none, _ => none
      | some (found, none), rest => (options? specs rest).map (found ++ ·)
      | some (found, some long), value :: rest =>
        if looksLikeOption value then none
        else (options? specs rest).map fun more => found ++ (long, some value) :: more
      | some (_, some _), [] => none

/-- Whether no option but the counting one is given twice. -/
def noRepeats : List Given → Bool
  | [] => true
  | (long, _) :: rest =>
    (long == OptionSpec.verbose.long || rest.all (·.1 != long)) && noRepeats rest

/-- Whether an option is given. -/
def isGiven (given : List Given) (long : String) : Bool := given.any (·.1 == long)

/-- The value of an option, if it is given. -/
def value? (given : List Given) (long : String) : Option String :=
  (given.find? (·.1 == long)).bind (·.2)

/-- Whether the value of an option, if it is given, is not empty. -/
def notEmpty (given : List Given) (long : String) : Bool :=
  (value? given long).all (!·.isEmpty)

/-! ### Commands -/

/-- What a command line asks for. -/
inductive Command where
  /-- Write the module of a document, or show it. -/
  | generate (input : String) (output file : Option String) (dryRun : Bool) (config : Option String)
  | init (output : String) (force : Bool)
  /-- Compare a module with what a document generates. -/
  | validate (path input : String) (config : Option String)
  deriving DecidableEq

namespace Command

/-- The options of the arguments of a command, checked. -/
def given? (specs : List OptionSpec) (args : List String) (paths : List String) :
    Option (List Given) := do
  let given ← options? specs args
  if noRepeats given && paths.all (notEmpty given) then some given else none

/-- The command of a name and the arguments behind it. -/
def ofName? (default : String) (name : String) (args : List String) : Option Command :=
  match name with
  | "generate" => do
    let given ← given? OptionSpec.generate args ["input", "output", "config"]
    let input ← value? given "input"
    return .generate input (value? given "output") (value? given "file") (isGiven given "dry-run")
      (value? given "config")
  | "init" => do
    let given ← given? OptionSpec.init args ["output"]
    return .init ((value? given "output").getD default) (isGiven given "force")
  | "validate" => do
    let given ← given? OptionSpec.validate args ["path", "input", "config"]
    let path ← value? given "path"
    let input ← value? given "input"
    return .validate path input (value? given "config")
  | _ => none

/-- The command of a command line; none when the line is not used as it should be.  `default` is the
configuration file that `init` writes when no other is named. -/
def ofArguments? (default : String) (args : List String) : Option Command :=
  let front := args.takeWhile looksLikeOption
  if front.contains "--" then none
  else match options? [OptionSpec.verbose] front, args.drop front.length with
    | some _, name :: rest => ofName? default name rest
    | _, _ => none

end Command

end ZodRoutes.Cli
