/-
Numbers of JSON documents.

A literal that is an integer from `-2 ^ 63` to `2 ^ 64 - 1` stays an integer; every other literal, and
`-0`, is a binary64 number.  Counts are integers that are not negative, and an integer never equals a
binary64 number, whatever their values.

The literal of a binary64 number is read in two roundings: as many leading digits as fit into sixty-four
bits are rounded once, and the result is multiplied or divided by the rounded power of ten and rounded
again.  A literal beyond the range is none at all.
-/
import ZodRoutes.Decimal.Layout
import ZodRoutes.Decimal.Numeral

namespace ZodRoutes.Json

open Decimal (Double Numeral)

/-- A number as its literal was written: an integer, or a binary64 number. -/
inductive Number where
  /-- An integer literal. -/
  | int (n : Int)
  /-- Any other literal. -/
  | real (x : Double)
  deriving DecidableEq

namespace Number

/-- The value as a binary64 number, integers going to the nearest one. -/
def toDouble : Number → Double
  | int n => Double.ofInt n
  | real x => x

/-- The value as a count: an integer that is not negative. -/
def count? : Number → Option Nat
  | int n => if 0 ≤ n then some n.toNat else none
  | real _ => none

/-- Whether the value has no fraction. -/
def isWhole : Number → Bool
  | int _ => true
  | real x => x.isWhole

/-- Equality of numbers: of one sort and of one value. -/
def same : Number → Number → Bool
  | int m, int n => m == n
  | real x, real y => x.same y
  | _, _ => false

/-- The JSON text of a number. -/
def text : Number → String
  | int n => toString n
  | real x => Decimal.Layout.json.text x

/-! ### Reading a literal -/

/-- The largest significand that is held exactly. -/
def significandLimit : Nat := (1 <<< 64) - 1

/-- Take up digits while the significand stays within the limit; also the number of digits left. -/
def absorb (significand : Nat) : List Char → Nat × Nat
  | [] => (significand, 0)
  | c :: rest =>
    let next := significand * 10 + Decimal.digitValue c
    if next ≤ significandLimit then absorb next rest else (significand, rest.length + 1)

/-- The rounded power of ten, for exponents up to 308. -/
def tenPower (exponent : Nat) : Double :=
  (Double.nearest false (Decimal.powerOfTen exponent) 1).getD (Double.largest false)

/-- Scale by a power of ten, in steps of at most 308; after `steps` divisions nothing is left. -/
def scale? : Nat → Double → Int → Option Double
  | steps, x, exponent =>
    if 0 ≤ exponent then
      if x.rank = 0 then some x
      else if 308 < exponent then none
      else x.mul? (tenPower exponent.toNat)
    else if -308 ≤ exponent then x.div? (tenPower (-exponent).toNat)
    else match steps with
      | 0 => some Double.zero
      | steps + 1 => (x.div? (tenPower 308)).bind fun y => scale? steps y (exponent + 308)

/-- The binary64 number of a literal. -/
def real? (n : Numeral) : Option Double :=
  let fraction := n.fraction.getD []
  let (significand, wholeLeft) := absorb 0 n.whole
  let (significand, fractionLeft) := absorb significand fraction
  let exponent := (wholeLeft : Int) - ((fraction.length : Int) - fractionLeft) + n.exponent
  (scale? 3 (Double.ofInt significand) exponent).map ({ · with negative := n.negative })

/-- Whether the parts of a numeral are those of a JSON number. -/
def wellFormed (n : Numeral) : Bool :=
  n.sign != some '+' && !n.whole.isEmpty && (n.whole.length == 1 || n.whole.head? != some '0') &&
    Numeral.absentOrSome n.fraction && Numeral.absentOrSome (n.power.map Prod.snd)

/-- The number that a literal denotes; none for a malformed literal or one beyond the range. -/
def ofLiteral? (literal : List Char) : Option Number := do
  let n ← Numeral.cut? literal
  if !wellFormed n then none
  else if n.fraction.isSome || n.power.isSome then (real? n).map real
  else
    let magnitude := Decimal.digitsValue 0 n.whole
    if n.negative then
      if 0 < magnitude ∧ magnitude ≤ 1 <<< 63 then some (int (-magnitude)) else (real? n).map real
    else if magnitude ≤ significandLimit then some (int magnitude) else (real? n).map real

end Number

end ZodRoutes.Json
