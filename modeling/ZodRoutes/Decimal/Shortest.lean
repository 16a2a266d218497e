/-
The fewest decimal digits that read back as the same number.

The reals that round to a number form an interval around it, its ends included when the mantissa is
even.  On the decimal grid of one, two, three, ... digits the two neighbours of the number are tried;
the first grid of which one lies in the interval wins, and of two such neighbours the nearer one.  If
any point of a grid lies in the interval, so does a neighbour, hence no shorter decimal reads back.
-/
import ZodRoutes.Decimal.Double

namespace ZodRoutes.Decimal

/-- A decimal `digits * 10 ^ exponent`; the digits do not end in zero unless they are zero. -/
structure Digits where
  digits : Nat
  /-- The power of ten that the last digit stands for. -/
  exponent : Int

/-- Which neighbour is taken when both are equally near. -/
inductive Tie where
  /-- The one whose last digit is even. -/
  | toEven
  /-- The larger magnitude. -/
  | away
  deriving DecidableEq

namespace Digits

/-- The decimal digits of a whole number, as characters. -/
def text (n : Nat) : List Char := Nat.toDigits 10 n

/-- How many decimal digits a whole number has. -/
def count (n : Nat) : Nat := (text n).length

/-- Drop zeros at the end, at most `fuel` of them. -/
def stripZeros : Nat → Digits → Digits
  | 0, d => d
  | fuel + 1, d =>
    if d.digits ≠ 0 ∧ d.digits % 10 = 0 then
      stripZeros fuel ⟨d.digits / 10, d.exponent + 1⟩
    else d

end Digits

namespace Double

/-- The reals that round to a number, as whole numbers over the common denominator `scale`. -/
structure Interval where
  centre : Nat
  lower : Nat
  upper : Nat
  /-- Whether the ends round to the number too. -/
  closed : Bool

/-- The common denominator: a quarter of the smallest magnitude. -/
def Interval.scale : Nat := 4 * unitsPerOne

/-- The interval of a number's magnitude; below a doubling of the spacing it is half as wide. -/
def interval (x : Double) : Interval :=
  let spacing := 1 <<< x.shift
  let centre := 4 * x.units
  let below := if x.mantissa = 1 <<< 52 ∧ 0 < x.shift then spacing else 2 * spacing
  ⟨centre, centre - below, centre + 2 * spacing, x.mantissa % 2 == 0⟩

/-- The power of ten of the first digit of a magnitude above zero. -/
def Interval.magnitude (i : Interval) : Int :=
  if scale ≤ i.centre then (Digits.count (i.centre / scale) : Int) - 1
  else -(Digits.count ((scale + i.centre - 1) / i.centre - 1) : Int)

/-- The grid point `10 ^ exponent * n` inside the interval that is nearest to the centre. -/
def Interval.onGrid? (i : Interval) (tie : Tie) (exponent : Int) : Option Nat :=
  let unit := scale * powerOfTen exponent.toNat
  let factor := powerOfTen (-exponent).toNat
  let centre := i.centre * factor
  let below := centre / unit
  let inside (n : Nat) : Bool :=
    if i.closed then decide (i.lower * factor ≤ n * unit ∧ n * unit ≤ i.upper * factor)
    else decide (i.lower * factor < n * unit ∧ n * unit < i.upper * factor)
  let toBelow := centre - below * unit
  let toAbove := (below + 1) * unit - centre
  match inside below, inside (below + 1) with
  | true, true =>
    if toBelow < toAbove then some below
    else if toAbove < toBelow then some (below + 1)
    else match tie with
      | .toEven => some (if below % 2 = 0 then below else below + 1)
      | .away => some (below + 1)
  | true, false => some below
  | false, true => some (below + 1)
  | false, false => none

/-- The shortest decimal that reads back as the number's magnitude, the nearest such one. -/
def shortest (x : Double) (tie : Tie) : Digits :=
  if x.rank = 0 then ⟨0, 0⟩
  else
    let i := x.interval
    let top := i.magnitude
    let found := (List.range 17).findSome? fun (more : Nat) =>
      let exponent := top - more
      (i.onGrid? tie exponent).map fun n => Digits.stripZeros 20 ⟨n, exponent⟩
    found.getD ⟨0, 0⟩

end Double

end ZodRoutes.Decimal
