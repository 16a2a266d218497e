/-
What a scalar stands for.

A scalar with a tag is what the tag says, and refused when its text cannot be that.  Without a tag it is a
text, unless it is plain: then it is null, a truth value, an integer, a binary64 number or a text, tried in
this order.

Integers may be written in base two, eight, ten and sixteen; in base ten a zero in front of other digits
makes a text.  Integers that do not fit into sixty-four bits are refused while they fit into twice as
many; longer ones are binary64 numbers.  Infinities and not-a-number have no JSON number and become null.
-/
import ZodRoutes.Json.Value
import ZodRoutes.Text.Hexadecimal
import ZodRoutes.Yaml.Tag

namespace ZodRoutes.Yaml

open Decimal (Numeral)
open Json (Number Value)

/-- The value of digits in a base; none when there is no digit or another character. -/
def natIn? (base : Nat) (digits : List Char) : Option Nat :=
  if digits.isEmpty then none else Text.numberIn? base digits

/-- Whether a scalar is digits alone with a zero in front of others, after an optional sign. -/
def hasLeadingZero (text : List Char) : Bool :=
  let digits := (Numeral.cutSign text).2
  1 < digits.length && digits.head? == some '0' && digits.all Char.isDigit

/-- The magnitude written after the sign of an integer. -/
def magnitude? : List Char → Option Nat
  | '0' :: 'x' :: digits => natIn? 16 digits
  | '0' :: 'o' :: digits => natIn? 8 digits
  | '0' :: 'b' :: digits => natIn? 2 digits
  | digits => if hasLeadingZero digits then none else natIn? 10 digits

/-- The integer that a scalar denotes, of any size. -/
def integer? (text : List Char) : Option Int :=
  match Numeral.cutSign text with
  | (some '-', rest) => (magnitude? rest).map fun n => -(n : Int)
  | (_, rest) => (magnitude? rest).map fun n => (n : Int)

/-- Whether the parts of a numeral are those of a decimal number. -/
def isDecimal (n : Numeral) : Bool :=
  (!n.whole.isEmpty || n.fraction.any (!·.isEmpty)) && Numeral.absentOrSome (n.power.map Prod.snd)

/-- The finite number that a scalar denotes. -/
def decimal? (text : List Char) : Option Decimal.Double := do
  let n ← Numeral.cut? text
  if isDecimal n then n.toDouble? else none

/-- The null that a scalar denotes. -/
def null? (text : String) : Option Value :=
  if ["~", "null", "Null", "NULL"].contains text then some .null else none

/-- The truth value that a scalar denotes. -/
def bool? (text : String) : Option Value :=
  if ["true", "True", "TRUE"].contains text then some (.bool true)
  else if ["false", "False", "FALSE"].contains text then some (.bool false)
  else none

/-- The value of an integer; none for one that is too large for sixty-four bits. -/
def intValue? (n : Int) : Option Value :=
  if -(1 <<< 63) ≤ n ∧ n < 1 <<< 64 then some (.num (.int n)) else none

/-- The value of the number that a scalar denotes, of a fraction or none; null where it has no number in
JSON. -/
def real? (text : String) : Option Value :=
  if [".inf", ".Inf", ".INF", "+.inf", "+.Inf", "+.INF", "-.inf", "-.Inf", "-.INF", ".nan", ".NaN",
      ".NAN"].contains text then some .null
  else (decimal? text.toList).map fun x => .num (.real x)

/-- The value of a plain scalar; none for an integer that is too large for sixty-four bits. -/
def plainValue? (text : String) : Option Value :=
  if text.isEmpty then some .null
  else match (null? text).or (bool? text) with
    | some value => some value
    | none =>
      let asReal := if hasLeadingZero text.toList then .str text else (real? text).getD (.str text)
      match integer? text.toList with
      | none => some asReal
      | some n => if -(1 <<< 127) ≤ n ∧ n < 1 <<< 128 then intValue? n else some asReal

/-- The value of a scalar without a tag. -/
def untaggedValue? (text : String) (plain : Bool) : Option Value :=
  if plain then plainValue? text else some (.str text)

/-- The value of a scalar with a tag that is not the document's own.  A tag that only starts like one says
nothing about plain scalars. -/
def taggedValue? (tag text : String) (plain : Bool) : Option Value :=
  match tag with
  | "tag:yaml.org,2002:null" => null? text
  | "tag:yaml.org,2002:bool" => bool? text
  | "tag:yaml.org,2002:int" => (integer? text.toList).bind intValue?
  | "tag:yaml.org,2002:float" => real? text
  | tag => if startsOwn tag then untaggedValue? text plain else some (.str text)

/-- The value of a scalar, plain or not, whose tag is not the document's own; none when it cannot be what
its tag says. -/
def scalarValue? (tag : Option String) (text : String) (plain : Bool) : Option Value :=
  match tag with
  | some tag => taggedValue? tag text plain
  | none => untaggedValue? text plain

end ZodRoutes.Yaml
