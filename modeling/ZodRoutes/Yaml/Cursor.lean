/-
A position in a YAML text.

The indentation rules of YAML need the column and the line of every character, and how many bytes lie
between two characters of a line, so the position is kept beside the rest of the text.  The size of the
whole text is kept too: no loop over the rest takes more rounds than that.
-/
namespace ZodRoutes.Yaml

/-- Whether a character ends a line. -/
def isBreak (c : Char) : Bool :=
  c == '\n' || c == '\r' || c.toNat == 0x85 || c.toNat == 0x2028 || c.toNat == 0x2029

/-- Whether a character is a space or a tab. -/
def isBlank (c : Char) : Bool := c == ' ' || c == '\t'

/-- Whether a character is a blank or ends a line. -/
def isGap (c : Char) : Bool := isBlank c || isBreak c

/-- Whether a place is the end of the text or holds a blank or a line break. -/
def atGap (place : Option Char) : Bool := place.all isGap

/-- Whether a place is the end of the text or holds a line break. -/
def atBreak (place : Option Char) : Bool := place.all isBreak

/-- Whether a character may stand in the name of an anchor, a handle or a directive. -/
def isNamePart (c : Char) : Bool := c.isAlphanum || c == '_' || c == '-'

/-- The mark that may stand before the first character of a line. -/
def byteOrderMark : Char := '\uFEFF'

/-- Whether a character may stand in a YAML text at all. -/
def isPrintable (c : Char) : Bool :=
  let n := c.toNat
  n == 0x9 || n == 0xA || n == 0xD || (0x20 ≤ n && n ≤ 0x7E) || n == 0x85 ||
    (0xA0 ≤ n && n ≤ 0xD7FF) || (0xE000 ≤ n && n ≤ 0xFFFD) || 0x10000 ≤ n

/-- The rest of a text and where it starts. -/
structure Cursor where
  rest : List Char
  /-- How many lines have been ended. -/
  line : Nat
  /-- How many characters of this line have been read. -/
  column : Nat
  /-- How many bytes of UTF-8 those characters take. -/
  bytes : Nat
  /-- How many characters the whole text has. -/
  size : Nat

namespace Cursor

/-- The start of a text. -/
def start (text : List Char) : Cursor := ⟨text, 0, 0, 0, text.length⟩

/-- The next character. -/
def peek? (c : Cursor) : Option Char := c.rest.head?

/-- The character so many places further on. -/
def peekAt? (c : Cursor) (n : Nat) : Option Char := (c.rest.drop n).head?

/-- Whether the next character is that one. -/
def sees (c : Cursor) (char : Char) : Bool := c.peek? == some char

/-- Pass `n` characters that end no line. -/
def skip (c : Cursor) (n : Nat) : Cursor :=
  { c with
    rest := c.rest.drop n
    column := c.column + n
    bytes := (c.rest.take n).foldl (· + ·.utf8Size) c.bytes }

/-- Pass the characters at the front of which `p` holds, none of which ends a line. -/
def skipWhile (c : Cursor) (p : Char → Bool) : Cursor :=
  c.skip (c.rest.takeWhile p).length

/-- The start of the next line, at which `rest` is left. -/
def nextLine (c : Cursor) (rest : List Char) : Cursor :=
  { c with rest := rest, line := c.line + 1, column := 0, bytes := 0 }

/-- Pass a line break, if one is next; also its text, the separators of Unicode apart a line feed. -/
def lineBreak (c : Cursor) : String × Cursor :=
  match c.rest with
  | '\r' :: '\n' :: rest => ("\n", c.nextLine rest)
  | char :: rest =>
    if isBreak char then
      let text := if char.toNat == 0x2028 || char.toNat == 0x2029 then char.toString else "\n"
      (text, c.nextLine rest)
    else ("", c)
  | [] => ("", c)

/-- Pass a byte order mark at the start of a line.  It counts as a character, so what follows it on the
line stands in a further column than it seems to. -/
def skipByteOrderMark (c : Cursor) : Cursor :=
  if c.column == 0 && c.sees byteOrderMark then c.skip 1 else c

/-- Pass a line break, if one is next. -/
def skipBreak (c : Cursor) : Cursor := c.lineBreak.2

/-- Whether a document starts or ends on this line: three dashes or dots in front, then a gap. -/
def atDocumentMark (c : Cursor) : Bool :=
  c.column == 0 && atGap (c.peekAt? 3) &&
    (c.rest.take 3 == ['-', '-', '-'] || c.rest.take 3 == ['.', '.', '.'])

end Cursor

end ZodRoutes.Yaml
