/-
The scalars of TOML: strings, numbers, dates and times.

Strings are read to their text.  Numbers, dates and times are only checked: digits may be grouped by
single underscores, a decimal number has no zero in front of other digits, and the fields of dates and
times are within their ranges.  A well-formed number can still be out of range: an integer has to fit
into 128 bits with or without a sign, and any other number must not be rounded to infinity.
-/
import ZodRoutes.Decimal.Numeral
import ZodRoutes.Text.Hexadecimal

namespace ZodRoutes.Toml

open Decimal (Numeral)
open Text (hexChar? hexValue? numberIn?)

/-! ### Strings -/

/-- Whether a character may not stand in a string or a comment: a control character, tabs apart. -/
def isControl (c : Char) : Bool :=
  (c.toNat < 0x20 && c != '\t') || c.toNat == 0x7F

/-- The character that a letter after a backslash stands for. -/
def escape? : Char → Option Char
  | 'b' => some (Char.ofNat 0x8)
  | 't' => some '\t'
  | 'n' => some '\n'
  | 'f' => some (Char.ofNat 0xC)
  | 'r' => some '\r'
  | 'e' => some (Char.ofNat 0x1B)
  | '"' => some '"'
  | '\\' => some '\\'
  | _ => none

/-- A string and what follows it. -/
abbrev Cut := Option (List Char × List Char)

/-- Put characters in front of a string. -/
def Cut.after (front : List Char) (cut : Cut) : Cut :=
  cut.map fun (text, rest) => (front ++ text, rest)

/-- The escape after a backslash: its character, and what follows it. -/
def escapeCut? : List Char → Option (Char × List Char)
  | 'x' :: a :: b :: rest => (hexChar? [a, b]).map (·, rest)
  | 'u' :: a :: b :: c :: d :: rest => (hexChar? [a, b, c, d]).map (·, rest)
  | 'U' :: a :: b :: c :: d :: e :: f :: g :: h :: rest =>
    (hexChar? [a, b, c, d, e, f, g, h]).map (·, rest)
  | c :: rest => (escape? c).map (·, rest)
  | [] => none

/-- A basic string on one line after its opening quote. -/
def basic? : Nat → List Char → Cut
  | 0, _ => none
  | _, [] => none
  | _, '"' :: rest => some ([], rest)
  | fuel + 1, '\\' :: rest =>
    match escapeCut? rest with
    | none => none
    | some (c, rest) => Cut.after [c] (basic? fuel rest)
  | fuel + 1, c :: rest => if isControl c then none else Cut.after [c] (basic? fuel rest)

/-- A literal string on one line after its opening quote. -/
def literal? : List Char → Cut
  | [] => none
  | '\'' :: rest => some ([], rest)
  | c :: rest => if isControl c then none else Cut.after [c] (literal? rest)

/-- The line break at the front, and what follows it. -/
def lineBreak? : List Char → Option (List Char × List Char)
  | '\n' :: rest => some (['\n'], rest)
  | '\r' :: '\n' :: rest => some (['\r', '\n'], rest)
  | _ => none

/-- The end of a string on several lines: three quotes, of up to five the last three. -/
def closing? (quote : Char) (text : List Char) : Cut :=
  let quotes := (text.takeWhile (· == quote)).length
  if quotes < 3 then none
  else
    let inside := min (quotes - 3) 2
    some (List.replicate inside quote, text.drop (inside + 3))

/-- Whether a character is a space or a tab. -/
def isSpace (c : Char) : Bool := c == ' ' || c == '\t'

/-- A text without the blanks and line breaks in front. -/
def skipLayout : List Char → List Char
  | '\r' :: '\n' :: rest => skipLayout rest
  | c :: rest => if isSpace c || c == '\n' then skipLayout rest else c :: rest
  | [] => []

/-- The text behind a backslash at the end of a line, without the blanks and breaks that follow. -/
def continued? (text : List Char) : Option (List Char) :=
  if (lineBreak? (text.dropWhile isSpace)).isSome then some (skipLayout text) else none

/-- A string on several lines after its opening quotes; escapes only between double quotes. -/
def multiline? (quote : Char) : Nat → List Char → Cut
  | 0, _ => none
  | _, [] => none
  | fuel + 1, c :: rest =>
    match closing? quote (c :: rest), lineBreak? (c :: rest) with
    | some cut, _ => some cut
    | none, some (text, rest) => Cut.after text (multiline? quote fuel rest)
    | none, none =>
      if quote == '"' && c == '\\' then
        match continued? rest, escapeCut? rest with
        | some rest, _ => multiline? quote fuel rest
        | none, some (c, rest) => Cut.after [c] (multiline? quote fuel rest)
        | none, none => none
      else if isControl c then none
      else Cut.after [c] (multiline? quote fuel rest)

/-- A string on several lines after its opening quotes, a line break right there left out. -/
def multilineBody? (quote : Char) (text : List Char) : Cut :=
  match lineBreak? text with
  | some (_, rest) => multiline? quote (rest.length + 1) rest
  | none => multiline? quote (text.length + 1) text

/-- The string at the front of a text; in a key it has to be on one line. -/
def string? (inKey : Bool) : List Char → Cut
  | '"' :: '"' :: '"' :: rest => if inKey then none else multilineBody? '"' rest
  | '\'' :: '\'' :: '\'' :: rest => if inKey then none else multilineBody? '\'' rest
  | '"' :: rest => basic? (rest.length + 1) rest
  | '\'' :: rest => literal? rest
  | _ => none

/-! ### Numbers -/

/-- Whether a text is digits, grouped by single underscores. -/
def isGrouped (isDigit : Char → Bool) : List Char → Bool
  | [] => false
  | [c] => isDigit c
  | c :: '_' :: rest => isDigit c && isGrouped isDigit rest
  | c :: rest => isDigit c && isGrouped isDigit rest

/-- A text without a sign in front. -/
def unsigned : List Char → List Char
  | '+' :: rest => rest
  | '-' :: rest => rest
  | text => text

/-- Whether a text is a decimal number without a sign: no zero in front of other digits. -/
def isWhole (text : List Char) : Bool :=
  isGrouped Char.isDigit text && (text.length == 1 || text.head? != some '0')

/-- A text without the underscores that group its digits. -/
def ungrouped (text : List Char) : List Char := text.filter (· != '_')

/-- The value of grouped digits in a base; none when there is no digit or another character. -/
def inBase? (base : Nat) (digits : List Char) : Option Nat :=
  if isGrouped (fun c => (hexValue? c).any (· < base)) digits then numberIn? base (ungrouped digits)
  else none

/-- The integer that a text denotes, of any size. -/
def integer? : List Char → Option Int
  | '0' :: 'x' :: digits => (inBase? 16 digits).map (↑·)
  | '0' :: 'o' :: digits => (inBase? 8 digits).map (↑·)
  | '0' :: 'b' :: digits => (inBase? 2 digits).map (↑·)
  | text =>
    if isWhole (unsigned text) then
      (inBase? 10 (unsigned text)).map fun n => if text.head? == some '-' then -(n : Int) else n
    else none

/-- Whether an integer fits into 128 bits, with or without a sign. -/
def fits (n : Int) : Bool := -(1 <<< 127) ≤ n && n < 1 <<< 128

/-- Whether a character marks a power of ten. -/
def isPowerMark (c : Char) : Bool := c == 'e' || c == 'E'

/-- Whether a text is empty or a power of ten. -/
def isPower : List Char → Bool
  | [] => true
  | c :: rest => isPowerMark c && isGrouped Char.isDigit (unsigned rest)

/-- Whether a text is infinity or not a number. -/
def isSpecial (text : List Char) : Bool :=
  let text := unsigned text
  text == "inf".toList || text == "nan".toList

/-- Whether a text is a number with a fraction or a power of ten. -/
def isDecimal (text : List Char) : Bool :=
  let text := unsigned text
  let whole := text.takeWhile fun c => c != '.' && !isPowerMark c
  isWhole whole && match text.drop whole.length with
    | '.' :: rest =>
      let fraction := rest.takeWhile (!isPowerMark ·)
      isGrouped Char.isDigit fraction && isPower (rest.drop fraction.length)
    | [] => false
    | rest => isPower rest

/-- Whether the nearest binary64 number of a decimal number is finite. -/
def isFinite (text : List Char) : Bool :=
  ((Numeral.cut? (ungrouped text)).bind Numeral.toDouble?).isSome

/-- Whether a number is within its range; none when the text is not a number. -/
def inRange? (text : List Char) : Option Bool :=
  match integer? text with
  | some n => some (fits n)
  | none =>
    if isSpecial text then some true
    else if isDecimal text then some (isFinite text)
    else none

/-! ### Dates and times -/

/-- The number that a row of digits denotes, if it is one. -/
def number? (digits : List Char) : Option Nat :=
  if digits.all Char.isDigit && !digits.isEmpty then
    some (digits.foldl (fun n c => n * 10 + (c.toNat - '0'.toNat)) 0)
  else none

/-- How many days a month has. -/
def daysIn (year month : Nat) : Nat :=
  if month == 2 then
    if (year % 4 == 0 && year % 100 != 0) || year % 400 == 0 then 29 else 28
  else if month == 4 || month == 6 || month == 9 || month == 11 then 30 else 31

/-- Whether a text is a date. -/
def isDate : List Char → Bool
  | [y1, y2, y3, y4, '-', m1, m2, '-', d1, d2] =>
    match number? [y1, y2, y3, y4], number? [m1, m2], number? [d1, d2] with
    | some year, some month, some day =>
      1 ≤ month && month ≤ 12 && 1 ≤ day && day ≤ daysIn year month
    | _, _, _ => false
  | _ => false

/-- Whether two characters are a number up to a limit. -/
def isField (limit : Nat) (a b : Char) : Bool := (number? [a, b]).any (· ≤ limit)

/-- Whether a text is empty or the offset of a time. -/
def isOffset : List Char → Bool
  | [] => true
  | ['Z'] => true
  | ['z'] => true
  | [sign, h1, h2, ':', m1, m2] =>
    (sign == '+' || sign == '-') && isField 23 h1 h2 && isField 59 m1 m2
  | _ => false

/-- Whether a time may end before a text: where a date is in front, an offset may follow. -/
def endsTime (dated : Bool) (text : List Char) : Bool :=
  if dated then isOffset text else text.isEmpty

/-- Whether a text is empty or the fraction of a second, and a time may end behind it. -/
def isFraction (dated : Bool) : List Char → Bool
  | '.' :: rest =>
    let digits := rest.takeWhile Char.isDigit
    !digits.isEmpty && endsTime dated (rest.drop digits.length)
  | rest => endsTime dated rest

/-- Whether a text is a time, with an offset where a date is in front; the seconds may be left out. -/
def isTime (dated : Bool) : List Char → Bool
  | h1 :: h2 :: ':' :: m1 :: m2 :: rest =>
    isField 23 h1 h2 && isField 59 m1 m2 && match rest with
      | ':' :: s1 :: s2 :: rest => isField 60 s1 s2 && isFraction dated rest
      | rest => endsTime dated rest
  | _ => false

/-- Whether a text is a date, a time, or both. -/
def isMoment (text : List Char) : Bool :=
  isTime false text || (isDate (text.take 10) && match text.drop 10 with
    | [] => true
    | mark :: time => (mark == 'T' || mark == 't' || mark == ' ') && isTime true time)

/-- Whether a character may stand in a number, a date or a time. -/
def isScalarPart (c : Char) : Bool :=
  c.isAlphanum || c == '+' || c == '-' || c == '.' || c == ':' || c == '_'

/-- The number, date or time at the front of a text, and what follows it. -/
def scalar (text : List Char) : List Char × List Char :=
  let first := text.takeWhile isScalarPart
  match text.drop first.length with
  | ' ' :: rest =>
    if isDate first && rest.head?.any Char.isDigit then
      let time := rest.takeWhile isScalarPart
      (first ++ ' ' :: time, rest.drop time.length)
    else (first, ' ' :: rest)
  | rest => (first, rest)

end ZodRoutes.Toml
