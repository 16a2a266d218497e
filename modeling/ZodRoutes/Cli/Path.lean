/-
Paths of files as texts.

A path is a row of components between slashes.  Slashes and single dots behind the last component say
nothing about it, so a name, an extension and a parent directory are found without them; a single dot in
front is a component of its own.
-/
namespace ZodRoutes.Cli

/-- The pieces of a text between slashes, those that are empty included. -/
def slashPieces : List Char → List (List Char)
  | [] => [[]]
  | c :: rest =>
    if c == '/' then [] :: slashPieces rest
    else match slashPieces rest with
      | [] => [[c]]
      | piece :: others => (c :: piece) :: others

namespace Path

/-- Whether a path starts at the root. -/
def isAbsolute (path : String) : Bool := path.toList.head? == some '/'

/-- Put a path behind a directory: an absolute one stands for itself, and a slash is put in between
unless the directory is empty or ends in one. -/
def join (dir file : String) : String :=
  if isAbsolute file || dir.isEmpty then file
  else if dir.toList.getLast? == some '/' then dir ++ file
  else dir ++ "/" ++ file

/-- A path without the slashes and single dots behind its last component. -/
def trimmed (path : List Char) : List Char :=
  let rec strip : List Char → List Char
    | '/' :: rest => strip rest
    | '.' :: '/' :: rest => strip ('/' :: rest)
    | reversed => reversed
  (strip path.reverse).reverse

/-- The last component of a path, unless it is the root, a dot or two dots. -/
def fileName? (path : String) : Option (List Char) :=
  match (slashPieces (trimmed path.toList)).getLast? with
  | none => none
  | some name => if name == [] || name == ['.'] || name == ['.', '.'] then none else some name

/-- What follows the last dot of the last component; a dot in front of all else starts none. -/
def extension? (path : String) : Option String :=
  match fileName? path with
  | none => none
  | some name =>
    let reversed := name.reverse
    let after := reversed.takeWhile (· != '.')
    if after.length + 1 < name.length then some (String.ofList after.reverse) else none

/-- The directory that a path is in: the path without its last component; none for the root and the
empty path. -/
def parent? (path : String) : Option String :=
  let path := trimmed path.toList
  if path.isEmpty then none
  else
    let dir := (path.reverse.dropWhile (· != '/')).reverse
    let short := trimmed dir
    some (String.ofList (if short.isEmpty && dir.head? == some '/' then ['/'] else short))

end Path

end ZodRoutes.Cli
