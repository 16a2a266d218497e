/-
TOML values and the tables of a document.

A document writes into one root table.  Which writes are allowed hangs on how a table came to be: by its
header, as a parent named in another header, as a parent in a dotted key, or inline.  Every table is
defined once: a header may still define a table that so far is only a parent in other headers, a dotted
key may go on in a table that dotted keys made, and an inline table is closed for good.
-/
import ZodRoutes.Entries

namespace ZodRoutes.Toml

/-- How a table came to be. -/
inductive Origin where
  /-- As a parent named in a header. -/
  | parent
  /-- By its own header. -/
  | header
  /-- As a parent in a dotted key. -/
  | dotted
  | inline
  deriving DecidableEq

/-- A value of a TOML document. -/
inductive Value where
  | text (s : String)
  | flag (b : Bool)
  /-- A number, and whether it is within its range. -/
  | number (inRange : Bool)
  | moment
  | array (items : List Value)
  | table (origin : Origin) (entries : List (String × Value))
  /-- The tables of one repeated header, the last one first. -/
  | tables (elements : List (List (String × Value)))
  deriving Inhabited

/-- A table that is written into. -/
abbrev Table := List (String × Value)

mutual

/-- Whether all numbers in a value are within their ranges. -/
def Value.inRange : Value → Bool
  | .number inRange => inRange
  | .array items => Value.itemsInRange items
  | .table _ entries => Value.entriesInRange entries
  | .tables elements => Value.elementsInRange elements
  | _ => true

/-- Whether all numbers in the elements of an array are within their ranges. -/
def Value.itemsInRange : List Value → Bool
  | [] => true
  | item :: rest => item.inRange && Value.itemsInRange rest

/-- Whether all numbers in the entries of a table are within their ranges. -/
def Value.entriesInRange : List (String × Value) → Bool
  | [] => true
  | (_, value) :: rest => value.inRange && Value.entriesInRange rest

/-- Whether all numbers in the tables of a repeated header are within their ranges. -/
def Value.elementsInRange : List (List (String × Value)) → Bool
  | [] => true
  | entries :: rest => Value.entriesInRange entries && Value.elementsInRange rest

end

namespace Table

/-- Change the value of a key, or give it one; none when `change` refuses. -/
def change? (change : Option Value → Option Value) (key : String) : Table → Option Table
  | [] => (change none).map fun value => [(key, value)]
  | (other, old) :: rest =>
    if other = key then (change (some old)).map fun value => (key, value) :: rest
    else (change? change key rest).map ((other, old) :: ·)

/-- Follow keys down from a table of some origin and write with `write?` where they end.  Tables that
are not there are made; in a dotted key, tables with a header of their own are closed. -/
def writeAt? (dotted : Bool) (write? : Origin → Table → Option Table) :
    List String → Origin → Table → Option Table
  | [], origin, entries => write? origin entries
  | key :: keys, _, entries =>
    change? (fun value => match value with
      | none =>
        let origin := if dotted then .dotted else .parent
        (writeAt? dotted write? keys origin []).map (.table origin)
      | some (.table origin inner) =>
        if origin = .inline || (dotted && origin = .header) then none
        else (writeAt? dotted write? keys origin inner).map (.table origin)
      | some (.tables (last :: others)) =>
        (writeAt? dotted write? keys .header last).map fun last => .tables (last :: others)
      | some _ => none) key entries

/-- Give a key a value, at the end of a dotted key or not; it must not be there, and the table must not
be one that the other way of writing has made. -/
def define? (dotted : Bool) (key : String) (value : Value) (origin : Origin) (entries : Table) :
    Option Table :=
  if dotted = (origin = .dotted) then
    change? (fun old => if old.isNone then some value else none) key entries
  else none

/-- Define a table by its header; it may be there as a parent named in other headers. -/
def defineTable? (key : String) (_ : Origin) (entries : Table) : Option Table :=
  change? (fun old => match old with
    | none => some (.table .header [])
    | some (.table .parent inner) => some (.table .header inner)
    | some _ => none) key entries

/-- Add a table to those of a repeated header. -/
def addTable? (key : String) (_ : Origin) (entries : Table) : Option Table :=
  change? (fun old => match old with
    | none => some (.tables [[]])
    | some (.tables elements) => some (.tables ([] :: elements))
    | some _ => none) key entries

/-- Split a dotted key into its parents and its last part. -/
def splitLast? (keys : List String) : Option (List String × String) :=
  keys.getLast?.map fun last => (keys.dropLast, last)

/-- Write a value under a dotted key in the table that a header leads to. -/
def put? (header keys : List String) (value : Value) (root : Table) : Option Table := do
  let (parents, key) ← splitLast? keys
  let write? := writeAt? true (define? (!parents.isEmpty) key value) parents
  writeAt? false write? header .header root

/-- Define the table of a header. -/
def open? (header : List String) (root : Table) : Option Table := do
  let (parents, key) ← splitLast? header
  writeAt? false (defineTable? key) parents .header root

/-- Add a table for a repeated header. -/
def append? (header : List String) (root : Table) : Option Table := do
  let (parents, key) ← splitLast? header
  writeAt? false (addTable? key) parents .header root

end Table

end ZodRoutes.Toml
