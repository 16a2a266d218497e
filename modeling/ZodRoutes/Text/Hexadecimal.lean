/-
Hexadecimal digits.

Several formats write a character as the digits of its code, letters of either case.  A code that belongs
to no character, of a surrogate or beyond Unicode, gives none.
-/
namespace ZodRoutes.Text

/-- The value of a hexadecimal digit of either case. -/
def hexValue? (c : Char) : Option Nat :=
  if c.isDigit then some (c.toNat - '0'.toNat)
  else if 'a' ≤ c ∧ c ≤ 'f' then some (c.toNat - 'a'.toNat + 10)
  else if 'A' ≤ c ∧ c ≤ 'F' then some (c.toNat - 'A'.toNat + 10)
  else none

/-- The number that digits denote in a base up to sixteen; none when one is not a digit of it. -/
def numberIn? (base : Nat) (digits : List Char) : Option Nat :=
  digits.foldlM (fun n c => ((hexValue? c).filter (· < base)).map (n * base + ·)) 0

/-- The character of a code in hexadecimal digits, if it is the code of one. -/
def hexChar? (digits : List Char) : Option Char := do
  let code ← numberIn? 16 digits
  if h : code.isValidChar then some (Char.ofNatAux code h) else none

end ZodRoutes.Text
