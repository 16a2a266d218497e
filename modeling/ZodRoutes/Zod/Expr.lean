/-
Zod expressions under construction.

An expression is a base call with method calls chained onto it.  Null and absence are kept aside as two
flags, so that they are written last and once each, `.nullable()` before `.optional()`, in whatever order
the calls and the flags were given.
-/
import ZodRoutes.Decimal.Layout
import ZodRoutes.Schema.Literal
import ZodRoutes.Schema.Rule

namespace ZodRoutes.Zod

open Schema (Format Literal Rule)

/-- A base call, the calls chained onto it, and whether null and absence are accepted too. -/
structure Expr where
  base : String
  /-- The chained calls, in the order in which they were added. -/
  calls : List String
  isNullable : Bool
  isOptional : Bool
  deriving DecidableEq

namespace Expr

/-- An expression that is a text alone. -/
def ofText (base : String) : Expr := ⟨base, [], false, false⟩

/-! ### Bases -/

/-- Any text. -/
def string : Expr := ofText "z.string()"

/-- Any number. -/
def number : Expr := ofText "z.number()"

/-- Any number without a fraction. -/
def integer : Expr := ofText "z.number().int()"

/-- A truth value. -/
def boolean : Expr := ofText "z.boolean()"

/-- Null alone. -/
def null : Expr := ofText "z.null()"

/-- Any value. -/
def unknown : Expr := ofText "z.unknown()"

/-- Whether a character may start an identifier. -/
def isIdentifierStart (c : Char) : Bool := c.isAlpha || c == '_' || c == '$'

/-- Whether a character may stand in an identifier. -/
def isIdentifierPart (c : Char) : Bool := c.isAlphanum || c == '_' || c == '$'

/-- Whether a key is a plain ASCII identifier. -/
def isIdentifier (key : String) : Bool :=
  match key.toList with
  | [] => false
  | first :: rest => isIdentifierStart first && rest.all isIdentifierPart

/-- A key of an object literal, quoted unless it is a plain identifier. -/
def objectKey (key : String) : String :=
  if isIdentifier key then key else Text.quoted key

/-- An object with these members, in order. -/
def object (entries : Entries String) : Expr :=
  let members := entries.map fun (key, value) => objectKey key ++ ":" ++ value
  ofText ("z.object(\x7b" ++ Text.joined "," members ++ "\x7d)")

/-- An object whose members all satisfy one expression. -/
def record (value : String) : Expr := ofText ("z.record(z.string()," ++ value ++ ")")

/-- A list of elements that satisfy one expression. -/
def array (element : String) : Expr := ofText ("z.array(" ++ element ++ ")")

/-- What some branch accepts; a single branch stands by itself. -/
def union : List String → Expr
  | [branch] => ofText branch
  | branches => ofText ("z.union([" ++ Text.joined "," branches ++ "])")

/-- What every branch accepts; a single branch stands by itself. -/
def intersection : List String → Expr
  | [] => ofText ""
  | first :: rest => ofText (rest.foldl (fun text branch => text ++ ".and(" ++ branch ++ ")") first)

/-- One of the literals: `z.enum` for texts alone, else a union of literals. -/
def enumeration (values : List Literal) : Expr :=
  if values.all Literal.isText then
    ofText ("z.enum([" ++ Text.joined "," (values.map Literal.text) ++ "])")
  else union (values.map fun value => "z.literal(" ++ value.text ++ ")")

/-- Accept what `source` accepts, turn it into a number, and accept that as `target`. -/
def coercion (source target : String) : Expr :=
  ofText (source ++ ".transform(Number).pipe(" ++ target ++ ")")

/-! ### Calls and flags -/

/-- The call for a text format. -/
def formatCall : Format → String
  | .email => ".email()"
  | .url => ".url()"
  | .uuid => ".uuid()"
  | .datetime => ".datetime()"
  | .date => ".date()"
  | .time => ".time()"
  | .ipv4 => ".ip(\x7bversion:\"v4\"\x7d)"
  | .ipv6 => ".ip(\x7bversion:\"v6\"\x7d)"

/-- A call of a method with one argument. -/
def callText (method argument : String) : String := "." ++ method ++ "(" ++ argument ++ ")"

/-- A bound as an argument. -/
def boundText (x : Decimal.Double) : String := Decimal.Layout.argument.text x

/-- The call for a rule. -/
def ruleCall : Rule → String
  | .format f => formatCall f
  | .minLength n => callText "min" (toString n)
  | .maxLength n => callText "max" (toString n)
  | .pattern source => callText "regex" ("new RegExp(" ++ Text.quoted source ++ ")")
  | .min x => callText "min" (boundText x)
  | .max x => callText "max" (boundText x)
  | .greaterThan x => callText "gt" (boundText x)
  | .lessThan x => callText "lt" (boundText x)
  | .multipleOf x => callText "multipleOf" (boundText x)
  | .minItems n => callText "min" (toString n)
  | .maxItems n => callText "max" (toString n)

/-- Chain a call. -/
def call (e : Expr) (text : String) : Expr := { e with calls := e.calls ++ [text] }

/-- Chain the call for a rule. -/
def rule (e : Expr) (r : Rule) : Expr := e.call (ruleCall r)

/-- Accept null too, if so told. -/
def nullable (e : Expr) (accept : Bool) : Expr := { e with isNullable := e.isNullable || accept }

/-- Accept absence too, if so told. -/
def optional (e : Expr) (accept : Bool) : Expr := { e with isOptional := e.isOptional || accept }

/-- The text of the expression: base, calls, then null, then absence. -/
def text (e : Expr) : String :=
  e.base ++ Text.joined "" e.calls ++ (if e.isNullable then ".nullable()" else "") ++
    (if e.isOptional then ".optional()" else "")

end Expr

end ZodRoutes.Zod
