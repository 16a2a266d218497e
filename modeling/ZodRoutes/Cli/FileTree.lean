/-
Trees of files and directories.

Paths are followed the way an operating system does: every component but the last has to be a directory,
two dots lead to the directory around, and an empty component or a single dot stays where it is but has
to stand in a directory.  So a path that ends in a slash names a directory or nothing.
-/
import ZodRoutes.Cli.Path
import ZodRoutes.Entries

namespace ZodRoutes.Cli

/-- A file with its text, or a directory with its entries. -/
inductive Entry where
  | file (text : String)
  | dir (entries : List (String × Entry))
  deriving Inhabited

namespace Entry

/-- The entry that a row of names leads to. -/
def at? : List String → Entry → Option Entry
  | [], entry => some entry
  | name :: names, dir entries => (Entries.get? entries name).bind (at? names)
  | _ :: _, file _ => none

/-- Put an entry where a row of names leads to; the directories on the way have to be there. -/
def put? (new : Entry) : List String → Entry → Option Entry
  | [], _ => some new
  | [name], dir entries => some (dir (Entries.insert entries name new))
  | name :: names, dir entries =>
    ((Entries.get? entries name).bind (put? new names)).map fun entry =>
      dir (Entries.insert entries name entry)
  | _ :: _, file _ => none

mutual

/-- The files below an entry, each with the path that leads to it from there. -/
def files : Entry → List (List String × String)
  | file text => [([], text)]
  | dir entries => filesOf entries

/-- The files below entries, each with the path that leads to it. -/
def filesOf : List (String × Entry) → List (List String × String)
  | [] => []
  | (name, entry) :: rest =>
    (files entry).map (fun (path, text) => (name :: path, text)) ++ filesOf rest

end

end Entry

/-- A tree of files and the directory that paths start from unless they start at the root. -/
structure FileTree where
  root : Entry
  /-- The names that lead to the working directory. -/
  work : List String

/-- Why a path leads nowhere. -/
inductive Detour where
  /-- A component on the way is not there. -/
  | missing
  /-- A component on the way is a file, the path is empty, or it holds a null character. -/
  | blocked
  | taken
  deriving DecidableEq

namespace FileTree

/-- The entry at a row of names from the root. -/
def entryAt? (tree : FileTree) (place : List String) : Option Entry := tree.root.at? place

/-- Follow components from a place.  The last one need not be there. -/
def follow (tree : FileTree) (place : List String) : List (List Char) → Except Detour (List String)
  | [] => .ok place
  | piece :: rest =>
    match tree.entryAt? place with
    | none => .error .missing
    | some (.file _) => .error .blocked
    | some (.dir _) =>
      if piece == [] || piece == ['.'] then tree.follow place rest
      else if piece == ['.', '.'] then tree.follow place.dropLast rest
      else tree.follow (place ++ [String.ofList piece]) rest

/-- The place that a path leads to; its last component need not be there. -/
def place (tree : FileTree) (path : List Char) : Except Detour (List String) :=
  if path.isEmpty then .error .missing
  else if path.any (·.toNat == 0) then .error .blocked
  else tree.follow (if path.head? == some '/' then [] else tree.work) (slashPieces path)

/-- The entry that a path leads to. -/
def entry? (tree : FileTree) (path : String) : Option Entry :=
  match tree.place path.toList with
  | .ok place => tree.entryAt? place
  | .error _ => none

/-- Whether a path leads to an entry. -/
def isThere (tree : FileTree) (path : String) : Bool := (tree.entry? path).isSome

/-- Whether a path leads to a directory. -/
def isDirectory (tree : FileTree) (path : String) : Bool :=
  match tree.entry? path with
  | some (.dir _) => true
  | _ => false

/-- The text of the file that a path leads to. -/
def read? (tree : FileTree) (path : String) : Option String :=
  match tree.entry? path with
  | some (.file text) => some text
  | _ => none

/-- Write a text to a file, new or not; a directory cannot be written to. -/
def write? (tree : FileTree) (path text : String) : Option FileTree :=
  match tree.place path.toList with
  | .error _ => none
  | .ok place =>
    match tree.entryAt? place with
    | some (.dir _) => none
    | _ => (Entry.put? (.file text) place tree.root).map fun root => { tree with root := root }

/-- Make one directory, whose parent has to be there. -/
def makeDirectory (tree : FileTree) (path : String) : Except Detour FileTree := do
  let place ← tree.place (path.toList.reverse.dropWhile (· == '/')).reverse
  match tree.entryAt? place with
  | some _ => throw .taken
  | none =>
    match Entry.put? (.dir []) place tree.root with
    | some root => return { tree with root := root }
    | none => throw .missing

/-- Make a directory after its parents, at most `depth` of them; whether it is there at the end, and the
tree with all that was made. -/
def makeDirectories : Nat → FileTree → String → Bool × FileTree
  | 0, tree, _ => (false, tree)
  | depth + 1, tree, path =>
    if path.isEmpty then (true, tree)
    else match tree.makeDirectory path with
      | .ok tree => (true, tree)
      | .error .missing =>
        match Path.parent? path with
        | none => (false, tree)
        | some parent =>
          match makeDirectories depth tree parent with
          | (false, tree) => (false, tree)
          | (true, tree) =>
            match tree.makeDirectory path with
            | .ok tree => (true, tree)
            | .error _ => (tree.isDirectory path, tree)
      | .error _ => (tree.isDirectory path, tree)

/-- Make a directory and its parents. -/
def withDirectories (tree : FileTree) (path : String) : Bool × FileTree :=
  makeDirectories (path.length + 1) tree path

/-- The files below the working directory, each with its path from there. -/
def files (tree : FileTree) : List (String × String) :=
  match tree.entryAt? tree.work with
  | some entry => entry.files.map fun (names, text) => ("/".intercalate names, text)
  | none => []

end FileTree

end ZodRoutes.Cli
