/-
The command line.

The files that a command may look at are pictured as a tree, the command runs on the picture, and the one
file that it may have changed is written to disk.
-/
import ZodRoutes.Cli.Command

namespace ZodRoutes.Cli

/-- The path of a row of names from the root. -/
def diskPath (place : List String) : String := "/" ++ "/".intercalate place

/-- The picture with the entry at a place, if there is one on disk. -/
def pictureEntry (tree : FileTree) (place : List String) : IO FileTree := do
  if (tree.entryAt? place).isSome then return tree
  let text ← (IO.FS.readFile (diskPath place)).toBaseIO
  let known ← (IO.FS.realPath (diskPath place)).toBaseIO
  let entry := match text, known with
    | .ok text, _ => some (Entry.file text)
    | .error _, .ok _ => some (Entry.dir [])
    | .error _, .error _ => none
  match entry.bind fun entry => Entry.put? entry place tree.root with
  | some root => return { tree with root := root }
  | none => return tree

/-- The picture with the entries that components lead through from a place. -/
def picturePieces (place : List String) : List (List Char) → FileTree → IO FileTree
  | [], tree => pictureEntry tree place
  | piece :: rest, tree => do
    let tree ← pictureEntry tree place
    if piece == [] || piece == ['.'] then picturePieces place rest tree
    else if piece == ['.', '.'] then picturePieces place.dropLast rest tree
    else picturePieces (place ++ [String.ofList piece]) rest tree

/-- The picture with the entries that a path leads through. -/
def picturePath (tree : FileTree) (path : String) : IO FileTree :=
  let start := if Path.isAbsolute path then [] else tree.work
  picturePieces start (slashPieces path.toList) tree

/-- The picture of the working directory and the directories around it. -/
def pictureWork : IO FileTree := do
  let path := (← IO.currentDir).toString
  let names := ((slashPieces path.toList).filter (!·.isEmpty)).map String.ofList
  picturePath ⟨.dir [], names⟩ path

/-- Write what a command has changed. -/
def saveChange (before after : FileTree) (path : String) : IO Unit :=
  match after.read? path with
  | none => return
  | some text => do
    if before.read? path == some text then return
    match Path.parent? path with
    | some parent => if !parent.isEmpty then IO.FS.createDirAll parent
    | none => pure ()
    IO.FS.writeFile path text

/-- Run a command on the files of the disk. -/
def Command.runOnDisk (command : Command) : IO UInt32 := do
  let mut tree ← pictureWork
  for path in command.sources do
    tree ← picturePath tree path
  let target := command.target? tree
  if let some path := target then
    tree ← picturePath tree path
  let (outcome, after) := command.run tree
  if let some path := target then
    saveChange tree after path
  IO.print outcome.stdout
  if let some error := outcome.error then
    IO.eprintln ("Error: " ++ error.message)
  return UInt32.ofNat outcome.exitCode

end ZodRoutes.Cli

open ZodRoutes.Cli in
/-- The command line: run the command that the arguments ask for. -/
def main (args : List String) : IO UInt32 :=
  match Command.ofArguments? configFile args with
  | some command => command.runOnDisk
  | none => do
    IO.eprintln "Usage: openapi-zod <generate|init|validate> [OPTIONS]"
    return 2
