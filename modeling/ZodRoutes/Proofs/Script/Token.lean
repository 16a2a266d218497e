/-
The tokens of a script.

A script is read from its front by the lexical rules of JavaScript: line and block comments, blanks, words,
numerals, string literals in double quotes, and marks.  Only what the rules are certain about is read, and
everything else is refused: a single slash, a backquote, a single quote, a mark that may be the front of a
longer one.  Of the escapes in a string literal those of JSON are read, which JavaScript reads alike; a numeral
stands for its characters, whatever number they denote.  So a text that is read here is read by JavaScript into
the same tokens.  A comment or a string that is still open where the text ends is refused too.

Which characters beyond ASCII may stand in a word is left to a parameter, since Unicode adds to them.
-/
import ZodRoutes.Json.Reader
import ZodRoutes.Zod.Expr

namespace ZodRoutes.Script

open Decimal (Numeral)
open Json.Token (isNumeric length_dropWhile_le length_of_string? string?)
open Zod.Expr (isIdentifierPart isIdentifierStart)

/-- A token of a script. -/
inductive Token where
  /-- A name or a keyword. -/
  | word (name : String)
  /-- A numeral without a sign, as it is written. -/
  | numeral (text : String)
  /-- A string literal by the text that it denotes. -/
  | string (value : String)
  | mark (c : Char)
  deriving DecidableEq

/-- The token of a property name decodes to the name: a word to itself, a string to what it denotes. -/
def Token.key? : Token → Option String
  | .word name => some name
  | .string value => some value
  | _ => none

/-! ### Comments -/

/-- Whether a character ends a line. -/
def endsLine (c : Char) : Bool :=
  c == '\n' || c == '\r' || c == '\u2028' || c == '\u2029'

/-- What follows the line at the front of a text, if the line is ended. -/
def lineEnd? : List Char → Option (List Char)
  | [] => none
  | c :: rest => if endsLine c then some rest else lineEnd? rest

/-- What follows the first end mark of a block comment. -/
def blockEnd? : List Char → Option (List Char)
  | '*' :: '/' :: rest => some rest
  | _ :: rest => blockEnd? rest
  | [] => none

/-! ### Characters and numerals -/

/-- Whether a character stands between tokens and belongs to none. -/
def isBlank (c : Char) : Bool :=
  c == ' ' || c == '\t' || c == '\n' || c == '\r'

/-- Whether a character may stand in a word: ASCII as in an identifier, beyond ASCII as `beyond` has it. -/
def isWordPart (beyond : Char → Bool) (c : Char) : Bool :=
  isIdentifierPart c || (0x80 ≤ c.toNat && beyond c)

/-- The characters that are tokens by themselves whatever follows. -/
def plainMarks : List Char := ['(', ')', '[', ']', '\x7b', '\x7d', ',', ':', ';']

/-- Whether a character is a token by itself, given what follows it. -/
def isMark (c : Char) (next : Option Char) : Bool :=
  plainMarks.contains c || (c == '=' && next.any isBlank) || (c == '-' && next.any Char.isDigit) ||
    (c == '.' && next.any isIdentifierStart)

/-- Whether a text is a numeral without a sign, none of its parts left empty. -/
def isUnsigned (text : List Char) : Bool :=
  (Numeral.cut? text).any fun n => n.sign.isNone && !n.whole.isEmpty &&
    Numeral.absentOrSome n.fraction && Numeral.absentOrSome (n.power.map Prod.snd)

/-! ### Tokens -/

/-- The piece at the front of a text and what follows it.  A comment or a blank is a piece without a token;
a word starts with an ASCII character. -/
def piece? (beyond : Char → Bool) : List Char → Option (Option Token × List Char)
  | [] => none
  | '/' :: '/' :: rest => (lineEnd? rest).map (none, ·)
  | '/' :: '*' :: rest => (blockEnd? rest).map (none, ·)
  | '"' :: rest => (string? rest).map fun (value, rest) => (some (.string (String.ofList value)), rest)
  | c :: rest =>
    if isIdentifierStart c then
      some (some (.word (String.ofList (c :: rest.takeWhile (isWordPart beyond)))),
        rest.dropWhile (isWordPart beyond))
    else if c.isDigit then
      let text := c :: rest.takeWhile isNumeric
      let rest := rest.dropWhile isNumeric
      if isUnsigned text && !rest.head?.any (isWordPart beyond) then
        some (some (.numeral (String.ofList text)), rest)
      else none
    else if isBlank c then some (none, rest)
    else if isMark c rest.head? then some (some (.mark c), rest)
    else none

theorem length_of_lineEnd? {text rest : List Char} (h : lineEnd? text = some rest) :
    rest.length < text.length := by
  fun_induction lineEnd? text <;> grind

theorem length_of_blockEnd? {text rest : List Char} (h : blockEnd? text = some rest) :
    rest.length < text.length := by
  fun_induction blockEnd? text <;> grind

/-- A piece takes at least one character. -/
theorem length_of_piece? {beyond : Char → Bool} {text rest : List Char} {token? : Option Token}
    (h : piece? beyond text = some (token?, rest)) : rest.length < text.length := by
  unfold piece? at h
  split at h
  · cases h
  · next inner =>
      obtain ⟨after, hend, heq⟩ := Option.map_eq_some_iff.mp h
      cases heq
      have := length_of_lineEnd? hend
      grind
  · next inner =>
      obtain ⟨after, hend, heq⟩ := Option.map_eq_some_iff.mp h
      cases heq
      have := length_of_blockEnd? hend
      grind
  · next inner =>
      obtain ⟨⟨value, after⟩, hread, heq⟩ := Option.map_eq_some_iff.mp h
      cases heq
      have := length_of_string? hread
      grind
  · next c inner _ _ _ =>
      have hnumeric := length_dropWhile_le isNumeric inner
      have hword := length_dropWhile_le (isWordPart beyond) inner
      grind

/-- The tokens of a script; none where something is refused. -/
def tokens? (beyond : Char → Bool) (text : List Char) : Option (List Token) :=
  match text with
  | [] => some []
  | c :: rest =>
    match _h : piece? beyond (c :: rest) with
    | none => none
    | some (token?, rest) => (tokens? beyond rest).map (token?.toList ++ ·)
termination_by text.length
decreasing_by exact length_of_piece? _h

@[simp] theorem tokens?_nil (beyond : Char → Bool) : tokens? beyond [] = some [] := by
  rw [tokens?]

/-- The tokens of a text are the token of its first piece, if that has one, and then the others. -/
theorem tokens?_of_piece? {beyond : Char → Bool} {text rest : List Char} {token? : Option Token}
    (h : piece? beyond text = some (token?, rest)) :
    tokens? beyond text = (tokens? beyond rest).map (token?.toList ++ ·) := by
  cases text with
  | nil => cases h
  | cons c others =>
      rw [tokens?]
      split
      · next hnone =>
          rw [h] at hnone
          cases hnone
      · next token' rest' hsome =>
          rw [h] at hsome
          cases hsome
          rfl

end ZodRoutes.Script
