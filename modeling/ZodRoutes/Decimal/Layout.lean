/-
How the digits of a number are laid out as text.

A layout says which numbers are written positionally, whether a whole number then keeps a point and a
zero, and which of two equally near shortest decimals is taken.  What is not positional is scientific:
one digit, the others after a point, and the exponent with its sign.
-/
import ZodRoutes.Decimal.Shortest

namespace ZodRoutes.Decimal

/-- The choices that fix the text of a number. -/
structure Layout where
  /-- Which of two equally near shortest decimals is taken. -/
  tie : Tie
  /-- Whether a number whose first digit stands for this power of ten is written positionally. -/
  positional : Int → Bool
  /-- Whether a whole number written positionally ends in a point and a zero. -/
  pointZero : Bool

/-- Numbers in JSON text: positional from `1e-5` up to below `1e16`, always with a point there. -/
def Layout.json : Layout := ⟨.toEven, fun e => decide (-5 ≤ e ∧ e < 16), true⟩

/-- Numbers as arguments of a call: always positional, whole ones without a point. -/
def Layout.argument : Layout := ⟨.away, fun _ => true, false⟩

/-- Digits with the point where it belongs; `first` is the power of ten of the first digit. -/
def Layout.positionalText (layout : Layout) (digits : List Char) (first : Int) : List Char :=
  if first < 0 then
    '0' :: '.' :: List.replicate (-first - 1).toNat '0' ++ digits
  else
    let whole := first.toNat + 1
    if digits.length ≤ whole then
      digits ++ List.replicate (whole - digits.length) '0' ++
        (if layout.pointZero then ['.', '0'] else [])
    else digits.take whole ++ '.' :: digits.drop whole

/-- One digit, the others after a point, and the exponent with its sign. -/
def scientificText (digits : List Char) (first : Int) : List Char :=
  let others := digits.drop 1
  digits.take 1 ++ (if others.isEmpty then [] else '.' :: others) ++
    'e' :: (if first < 0 then '-' else '+') :: Digits.text first.natAbs

/-- The text of a number; a zero keeps its sign. -/
def Layout.text (layout : Layout) (x : Double) : String :=
  let decimal := x.shortest layout.tie
  let digits := Digits.text decimal.digits
  let first := decimal.exponent + (digits.length : Int) - 1
  let magnitude :=
    if x.rank = 0 || layout.positional first then layout.positionalText digits first
    else scientificText digits first
  String.ofList (if x.negative then '-' :: magnitude else magnitude)

end ZodRoutes.Decimal
