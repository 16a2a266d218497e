/-
Reading a TOML document.

A document is a list of lines: blank ones, comments, headers, and keys with values, each value on the
line of its key unless it is between brackets or a string on several lines.  Between brackets, of arrays and
of inline tables alike, line breaks and comments may stand wherever blanks may, and a comma may stand
before the closing one.  Brackets are nested at most eighty deep, and a key has at most eighty parts.

Every second step passes at least one character, so twice the length of the text bounds them.
-/
import ZodRoutes.Toml.Scalar
import ZodRoutes.Toml.Value

namespace ZodRoutes.Toml

/-- A text without spaces and tabs in front. -/
def skipSpaces (text : List Char) : List Char := text.dropWhile isSpace

/-- The end of a line or of the text after spaces and a comment; what follows it. -/
def lineEnd? (text : List Char) : Option (List Char) :=
  match skipSpaces text with
  | [] => some []
  | '#' :: rest =>
    let rest := rest.dropWhile (!isControl ·)
    if rest.isEmpty then some [] else (lineBreak? rest).map Prod.snd
  | rest => (lineBreak? rest).map Prod.snd

/-! ### Keys -/

/-- Whether a character may stand in a key without quotes. -/
def isBare (c : Char) : Bool := c.isAlphanum || c == '_' || c == '-'

/-- One part of a key, and what follows it. -/
def keyPart? (text : List Char) : Option (String × List Char) :=
  match text with
  | '"' :: _ | '\'' :: _ => (string? true text).map fun (part, rest) => (String.ofList part, rest)
  | _ =>
    let part := text.takeWhile isBare
    if part.isEmpty then none else some (String.ofList part, text.drop part.length)

/-- The largest number of parts of a key, and of brackets inside each other. -/
def nestingLimit : Nat := 80

/-- A key of at most so many parts with points between them, and what follows it and the spaces behind
it. -/
def keyParts? : Nat → List Char → Option (List String × List Char)
  | 0, _ => none
  | limit + 1, text => do
    let (part, rest) ← keyPart? (skipSpaces text)
    match skipSpaces rest with
    | '.' :: rest => do
      let (parts, rest) ← keyParts? limit rest
      return (part :: parts, rest)
    | rest => return ([part], rest)

/-- A key, and what follows it and the spaces behind it. -/
def key? (text : List Char) : Option (List String × List Char) := keyParts? nestingLimit text

/-! ### Values -/

/-- A text without spaces, line breaks and comments in front, after so many lines at most; none for a
comment with a control character. -/
def skipLinesFrom? : Nat → List Char → Option (List Char)
  | 0, text => some text
  | fuel + 1, text =>
    match skipSpaces text with
    | '\n' :: rest => skipLinesFrom? fuel rest
    | '\r' :: '\n' :: rest => skipLinesFrom? fuel rest
    | '#' :: rest =>
      match lineEnd? ('#' :: rest) with
      | none => none
      | some rest => skipLinesFrom? fuel rest
    | rest => some rest

/-- A text without spaces, line breaks and comments in front. -/
def skipLines? (text : List Char) : Option (List Char) := skipLinesFrom? text.length text

/-- The scalar that a word denotes, strings apart. -/
def word? (word : List Char) : Option Value :=
  if word == "true".toList then some (.flag true)
  else if word == "false".toList then some (.flag false)
  else match inRange? word with
    | some inRange => some (.number inRange)
    | none => if isMoment word then some .moment else none

mutual

/-- The value at the front of a text, and what follows it; brackets may be nested `depth` deep. -/
def value? (depth : Nat) : Nat → List Char → Option (Value × List Char)
  | 0, _ => none
  | fuel + 1, text =>
    match text with
    | '"' :: _ | '\'' :: _ =>
      (string? false text).map fun (s, rest) => (.text (String.ofList s), rest)
    | '[' :: rest =>
      if depth = 0 then none
      else (items? (depth - 1) fuel rest).map fun (items, rest) => (.array items, rest)
    | '\x7b' :: rest =>
      if depth = 0 then none
      else (entries? (depth - 1) fuel [] rest).map fun (entries, rest) => (.table .inline entries, rest)
    | _ =>
      let (word, rest) := scalar text
      (word? word).map (·, rest)

/-- The elements of an array after its bracket or a comma, and what follows its end. -/
def items? (depth : Nat) : Nat → List Char → Option (List Value × List Char)
  | 0, _ => none
  | fuel + 1, text => do
    match ← skipLines? text with
    | ']' :: rest => return ([], rest)
    | text =>
      let (item, rest) ← value? depth fuel text
      match ← skipLines? rest with
      | ',' :: rest =>
        let (items, rest) ← items? depth fuel rest
        return (item :: items, rest)
      | ']' :: rest => return ([item], rest)
      | _ => none

/-- The entries of an inline table that come after `done`, and what follows its end. -/
def entries? (depth : Nat) : Nat → Table → List Char → Option (Table × List Char)
  | 0, _, _ => none
  | fuel + 1, done, text => do
    match ← skipLines? text with
    | '\x7d' :: rest => return (done, rest)
    | text =>
      let (keys, rest) ← key? text
      match ← skipLines? rest with
      | '=' :: rest =>
        let (value, rest) ← value? depth fuel (← skipLines? rest)
        let done ← Table.put? [] keys value done
        match ← skipLines? rest with
        | ',' :: rest => entries? depth fuel done rest
        | '\x7d' :: rest => return (done, rest)
        | _ => none
      | _ => none

end

/-! ### Lines -/

/-- Read on with the table that the last header leads to. -/
def lines? : Nat → List String → Table → List Char → Option Table
  | 0, _, _, _ => none
  | fuel + 1, header, root, text =>
    match lineEnd? text with
    | some [] => some root
    | some rest => lines? fuel header root rest
    | none =>
      match skipSpaces text with
      | '[' :: '[' :: rest =>
        match key? rest with
        | some (keys, ']' :: ']' :: rest) => do
          let root ← Table.append? keys root
          lines? fuel keys root (← lineEnd? rest)
        | _ => none
      | '[' :: rest =>
        match key? rest with
        | some (keys, ']' :: rest) => do
          let root ← Table.open? keys root
          lines? fuel keys root (← lineEnd? rest)
        | _ => none
      | rest =>
        match key? rest with
        | some (keys, '=' :: rest) => do
          let (value, rest) ← value? nestingLimit (2 * rest.length + 2) (skipSpaces rest)
          let root ← Table.put? header keys value root
          lines? fuel header root (← lineEnd? rest)
        | _ => none

/-- The table that a TOML text denotes; none when the text is refused. -/
def read? (text : String) : Option Table :=
  lines? (text.length + 1) [] [] (match text.toList with
    | '\uFEFF' :: rest => rest
    | chars => chars)

end ZodRoutes.Toml
