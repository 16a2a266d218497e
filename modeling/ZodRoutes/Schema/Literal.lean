/-
Literal values of a closed set: texts, numbers and truth values.
-/
import ZodRoutes.Json.Writer

namespace ZodRoutes.Schema

/-- A value that a closed set may list. -/
inductive Literal where
  | bool (b : Bool)
  | num (n : Json.Number)
  | str (s : String)
  deriving DecidableEq

namespace Literal

/-- Whether the literal is a text. -/
def isText : Literal → Bool
  | str _ => true
  | _ => false

/-- Equality of literals as values; numbers are equal when they are of one sort and one value. -/
def same : Literal → Literal → Bool
  | bool a, bool b => a == b
  | num m, num n => m.same n
  | str s, str t => s == t
  | _, _ => false

/-- The literal as a JSON value. -/
def toValue : Literal → Json.Value
  | bool b => .bool b
  | num n => .num n
  | str s => .str s

/-- The literal that a JSON value is, if it is a text, a number or a truth value. -/
def ofValue? : Json.Value → Option Literal
  | .bool b => some (bool b)
  | .num n => some (num n)
  | .str s => some (str s)
  | _ => none

/-- The literal as it stands in generated code. -/
def text (literal : Literal) : String :=
  literal.toValue.text

/-- What was written as a JSON value is read back. -/
@[simp] theorem ofValue?_toValue (literal : Literal) : ofValue? literal.toValue = some literal := by
  cases literal <;> rfl

end Literal

end ZodRoutes.Schema
