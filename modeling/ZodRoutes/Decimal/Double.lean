/-
Finite binary64 numbers, exactly.

The magnitudes of the finite binary64 numbers form one ascending row; a number is held as its sign and
its place in that row, its *rank*.  The spacing of the row doubles every `2 ^ 52` places, so a rank is
also a mantissa and a number of doublings: the magnitude is `mantissa * 2 ^ shift / 2 ^ 1074`.  Every
pair of a sign and a rank below `2047 * 2 ^ 52` is a number, and no number has two such pairs, zero
apart, which has a sign.

Rounding happens in exact integer arithmetic: the quotient is scaled so that its whole part has
fifty-three binary digits (or stands on the finest grid), and is then rounded half to even.  A carry
out of the mantissa moves to the next rank by itself.
-/
namespace ZodRoutes.Decimal

/-- A power of ten. -/
def powerOfTen (exponent : Nat) : Nat := Nat.pow 10 exponent

/-- A finite binary64 number: a sign and a place in the ascending row of magnitudes. -/
structure Double where
  /-- Whether the sign is minus; zero has both signs. -/
  negative : Bool
  /-- The place of the magnitude among all finite magnitudes, zero being the first. -/
  rank : Nat
  /-- Ranks from `2047 * 2 ^ 52` on would be infinite. -/
  rank_lt : rank < 2047 * (1 <<< 52)
  deriving DecidableEq

namespace Double

/-- Positive zero. -/
def zero : Double := ⟨false, 0, by decide⟩

/-- The largest finite number. -/
def largest (negative : Bool) : Double := ⟨negative, 2047 * (1 <<< 52) - 1, by decide⟩

/-- How often the spacing of the row has doubled where the magnitude stands. -/
def shift (x : Double) : Nat := x.rank / (1 <<< 52) - 1

/-- The magnitude in units of the spacing there. -/
def mantissa (x : Double) : Nat := x.rank - (x.shift <<< 52)

/-- The magnitude in units of `2 ^ -1074`, the smallest positive magnitude. -/
def units (x : Double) : Nat := x.mantissa <<< x.shift

/-- The number of smallest positive magnitudes in one. -/
def unitsPerOne : Nat := 1 <<< 1074

/-! ### Rounding -/

/-- The whole number nearest to `num / den`, the even one of two that are equally near. -/
def roundHalfEven (num den : Nat) : Nat :=
  let below := num / den
  let left := num % den
  if 2 * left < den then below
  else if den < 2 * left then below + 1
  else if below % 2 = 0 then below else below + 1

/-- The finite number nearest to `num / den`, ties to the even mantissa; none beyond the range. -/
def nearest (negative : Bool) (num den : Nat) : Option Double :=
  let scaled := num * unitsPerOne
  let shift := (scaled / den).log2 - 52
  let rank := (shift <<< 52) + roundHalfEven scaled (den <<< shift)
  if h : rank < 2047 * (1 <<< 52) then some ⟨negative, rank, h⟩ else none

/-- The number nearest to an integer; integers beyond the range go to its end. -/
def ofInt (n : Int) : Double :=
  (nearest (n < 0) n.natAbs 1).getD (largest (n < 0))

/-- The rounded product; none beyond the range. -/
def mul? (x y : Double) : Option Double :=
  nearest (x.negative != y.negative) (x.units * y.units) (unitsPerOne * unitsPerOne)

/-- The rounded quotient; none beyond the range or by zero. -/
def div? (x y : Double) : Option Double :=
  if y.units = 0 then none else nearest (x.negative != y.negative) x.units y.units

/-! ### Questions about the value -/

/-- Equality of values: the two zeros are equal. -/
def same (x y : Double) : Bool :=
  x.rank == y.rank && (x.rank == 0 || x.negative == y.negative)

/-- Whether the value is above zero. -/
def isPositive (x : Double) : Bool :=
  !x.negative && x.rank != 0

/-- Whether the value has no fraction. -/
def isWhole (x : Double) : Bool :=
  x.units % unitsPerOne == 0

end Double

end ZodRoutes.Decimal
