/-
The tags of a YAML text.

A tag is written as it is between angle brackets, or with a handle in front that stands for how it starts:
an exclamation mark, two of them, or a name between two.  A directive before a document chooses what a
handle stands for there; the first two stand for something already.  A single exclamation mark is a tag too.

A tag that starts with an exclamation mark is one of the document's own, the single mark included, and no
value is known to belong to it.  The other tags are common to all documents; four of them say what a scalar is
read as.

The bytes of a tag can be written by their numbers, so a tag is held byte by byte, a character for each.
-/
import ZodRoutes.Entries
import ZodRoutes.Text.Hexadecimal
import ZodRoutes.Yaml.Cursor

namespace ZodRoutes.Yaml

/-- What a handle stands for where no directive says so. -/
def standardHandles : Entries String := [("!", "!"), ("!!", "tag:yaml.org,2002:")]

/-- Whether the bytes of a tag are those of a text in UTF-8. -/
def isUtf8 (tag : String) : Bool :=
  (String.fromUTF8? (tag.toList.map (·.toNat.toUInt8)).toByteArray).isSome

/-- Whether a tag starts as the document's own ones do. -/
def startsOwn (tag : String) : Bool := tag.toList.head? == some '!'

/-- Whether a tag is one of the document's own; bytes that are no text name none. -/
def isOwnTag (tag : String) : Bool := startsOwn tag && isUtf8 tag

/-! ### Cutting a tag from a text -/

/-- The handle at the front of a text, closed by a second mark or not, and what follows it. -/
def handle? : List Char → Option (List Char × List Char)
  | '!' :: rest =>
    let name := rest.takeWhile isNamePart
    match rest.drop name.length with
    | '!' :: rest => some ('!' :: name ++ ['!'], rest)
    | rest => some ('!' :: name, rest)
  | _ => none

/-- Whether a handle is closed by a second mark. -/
def isClosed (handle : List Char) : Bool := 1 < handle.length && handle.getLast? == some '!'

/-- Whether a character may stand in a tag; commas and brackets only where they cannot end it. -/
def isTagPart (enclosed : Bool) (c : Char) : Bool :=
  isNamePart c || ";/?:@&=+$.%!~*'()".toList.contains c || (enclosed && ",[]".toList.contains c)

/-- How many bytes of a character follow its first byte, if a character starts with that byte. -/
def bytesAfter? (first : Nat) : Option Nat :=
  if first < 0x80 then some 0
  else if first < 0xC0 then none
  else if first < 0xE0 then some 1
  else if first < 0xF0 then some 2
  else if first < 0xF8 then some 3
  else none

/-- The text of a tag up to a character that is none of it, and what follows it, while `due` bytes are
still missing of a character.  A byte may be written as a percent sign and two digits. -/
def tagText? (enclosed : Bool) (due : Nat) : List Char → Option (List Char × List Char)
  | '%' :: a :: b :: rest => do
    let byte ← Text.numberIn? 16 [a, b]
    let due ←
      if due = 0 then bytesAfter? byte
      else if 0x80 ≤ byte ∧ byte < 0xC0 then some (due - 1)
      else none
    let (text, rest) ← tagText? enclosed due rest
    return (Char.ofNat byte :: text, rest)
  | c :: rest =>
    if due ≠ 0 || c == '%' then none
    else if isTagPart enclosed c then
      (tagText? enclosed 0 rest).map fun (text, rest) => (c :: text, rest)
    else some ([], c :: rest)
  | [] => if due = 0 then some ([], []) else none

/-- The part of a tag that counts: a byte of number zero ends it. -/
def upToNull (text : List Char) : List Char := text.takeWhile (·.toNat != 0)

/-- The text of a tag that is not left out, and what follows it. -/
def tagBody? (enclosed : Bool) (text : List Char) : Option (List Char × List Char) := do
  let (body, rest) ← tagText? enclosed 0 text
  if body.isEmpty then none else some (upToNull body, rest)

/-- The tag at the front of a text: its handle, empty where there is none, the rest of it, and what
follows it. -/
def tagCut? : List Char → Option (List Char × List Char × List Char)
  | '!' :: '<' :: rest => do
    let (body, rest) ← tagBody? true rest
    match rest with
    | '>' :: rest => return ([], body, rest)
    | _ => none
  | text => do
    let (handle, rest) ← handle? text
    if isClosed handle then
      let (body, rest) ← tagBody? false rest
      return (handle, body, rest)
    else
      let (more, rest) ← tagText? false 0 rest
      match upToNull (handle.drop 1 ++ more) with
      | [] => return ([], ['!'], rest)
      | body => return (['!'], body, rest)

/-! ### Directives -/

/-- What a directive says to the reader of a document. -/
inductive Directive where
  /-- The text is written for this version of the format. -/
  | version (major minor : Nat)
  /-- A handle stands for the start of tags. -/
  | handle (name start : String)
  deriving DecidableEq

namespace Directive

/-- Whether a document with the directive can be read: of the versions, only 1.1 and 1.2. -/
def isKnown : Directive → Bool
  | version major minor => major == 1 && (minor == 1 || minor == 2)
  | handle _ _ => true

/-- The number of a version at the front of a text, of at most nine digits. -/
def number? (text : List Char) : Option (Nat × List Char) :=
  let digits := text.takeWhile Char.isDigit
  if digits.length ≤ 9 && !digits.isEmpty then
    (Text.numberIn? 10 digits).map (·, text.drop digits.length)
  else none

/-- The directive behind a percent sign, and what follows it. -/
def cut? (text : List Char) : Option (Directive × List Char) := do
  let name := text.takeWhile isNamePart
  let rest := text.drop name.length
  if !atGap rest.head? then none
  let rest := rest.dropWhile isBlank
  if name == "YAML".toList then
    let (major, rest) ← number? rest
    match rest with
    | '.' :: rest =>
      let (minor, rest) ← number? rest
      return (version major minor, rest)
    | _ => none
  else if name == "TAG".toList then
    let (name, rest) ← handle? rest
    if !(isClosed name || name == ['!']) || !rest.head?.any isBlank then none
    let (start, rest) ← tagBody? true (rest.dropWhile isBlank)
    if !atGap rest.head? then none
    return (handle (String.ofList name) (String.ofList start), rest)
  else none

end Directive

end ZodRoutes.Yaml
