/-
Decimal numerals cut into their parts.

A numeral is a sign, digits, digits after a point, and a power of ten.  Each format that reads
numerals has its own rule on which parts may be missing or empty; cutting and valuing are shared.  The
value is exact until one rounding at the end.
-/
import ZodRoutes.Decimal.Double

namespace ZodRoutes.Decimal

/-- A numeral cut at its point and its exponent mark. -/
structure Numeral where
  sign : Option Char
  whole : List Char
  /-- The digits after the point, if there is a point. -/
  fraction : Option (List Char)
  /-- The sign and the digits of the power of ten, if there is one. -/
  power : Option (Option Char × List Char)

/-- The value of a decimal digit. -/
def digitValue (c : Char) : Nat := c.toNat - '0'.toNat

/-- The value of a row of digits, read on from `start`. -/
def digitsValue (start : Nat) (digits : List Char) : Nat :=
  digits.foldl (fun n c => n * 10 + digitValue c) start

namespace Numeral

/-- The sign at the front, if there is one, and what follows it. -/
def cutSign : List Char → Option Char × List Char
  | '-' :: rest => (some '-', rest)
  | '+' :: rest => (some '+', rest)
  | rest => (none, rest)

/-- The digits at the front, and what follows them. -/
def cutRow (text : List Char) : List Char × List Char :=
  (text.takeWhile Char.isDigit, text.dropWhile Char.isDigit)

/-- The digits after a point at the front, if there is one, and what follows them. -/
def cutFraction : List Char → Option (List Char) × List Char
  | '.' :: rest => (some (cutRow rest).1, (cutRow rest).2)
  | rest => (none, rest)

/-- The sign and the digits after an exponent mark at the front, if there is one, and what follows. -/
def cutPower : List Char → Option (Option Char × List Char) × List Char
  | 'e' :: rest | 'E' :: rest =>
    let (sign, rest) := cutSign rest
    (some (sign, (cutRow rest).1), (cutRow rest).2)
  | rest => (none, rest)

/-- Cut a text into the parts of a numeral; none when something else is left over. -/
def cut? (text : List Char) : Option Numeral :=
  let (sign, text) := cutSign text
  let (whole, text) := cutRow text
  let (fraction, text) := cutFraction text
  let (power, text) := cutPower text
  if text.isEmpty then some ⟨sign, whole, fraction, power⟩ else none

/-- Whether the sign is minus. -/
def negative (n : Numeral) : Bool := n.sign == some '-'

/-- The written power of ten, zero when there is none. -/
def exponent (n : Numeral) : Int :=
  match n.power with
  | none => 0
  | some (some '-', digits) => -(digitsValue 0 digits : Int)
  | some (_, digits) => digitsValue 0 digits

/-- Whether a row of digits is there and is not empty, or is not written at all. -/
def absentOrSome (part : Option (List Char)) : Bool :=
  match part with
  | none => true
  | some digits => !digits.isEmpty

/-- The finite number nearest to the numeral; none beyond the range. -/
def toDouble? (n : Numeral) : Option Double :=
  let fraction := n.fraction.getD []
  let digits := n.whole ++ fraction
  let value := digitsValue 0 digits
  let exponent := n.exponent - (fraction.length : Int)
  let top := exponent + (digits.length : Int)
  if value = 0 then some { Double.zero with negative := n.negative }
  else if top < -400 then some { Double.zero with negative := n.negative }
  else if 400 + (digits.length : Int) < top then none
  else Double.nearest n.negative (value * powerOfTen exponent.toNat)
    (powerOfTen (-exponent).toNat)

end Numeral

end ZodRoutes.Decimal
