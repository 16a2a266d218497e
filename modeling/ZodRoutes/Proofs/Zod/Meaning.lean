/-
What the terms of an expression stand for.

A term is read by the rules of the language: a string literal stands for its text, a record for its entries, the
last one counting of two with the same name, and a chain for what its calls give one after the other.  The
calls are those of the library, which is a parameter here.  A call that is not known or has other arguments
has no meaning, and neither has a regular expression that cannot be made, nor what either of them stands in.
What a validator makes of a call that it does not offer is left to the library.
-/
import ZodRoutes.Proofs.Zod.Library
import ZodRoutes.Proofs.Zod.Term

namespace ZodRoutes.Zod

/-- What a term stands for. -/
inductive Meaning (Validator : Type) where
  | library
  | validator (v : Validator)
  | primitive (p : Primitive)
  | pattern (source : String)
  | list (items : List (Meaning Validator))
  | record (entries : List (String × Meaning Validator))

/-- The name that a key stands for. -/
def Key.value : Key → String
  | .name word => word.name
  | .quoted word => String.ofList word.value

namespace Meaning

variable {Validator : Type}

def validator? : Meaning Validator → Option Validator
  | .validator v => some v
  | _ => none

def text? : Meaning Validator → Option String
  | .primitive (.text s) => some s
  | _ => none

/-- The validators of a record by their names. -/
def members? (entries : Entries (Meaning Validator)) : Option (Entries Validator) :=
  entries.mapM fun entry => entry.2.validator?.map fun v => (entry.1, v)

end Meaning

/-! ### Methods -/

/-- The methods that are known. -/
inductive Method where
  | string | number | boolean | null | unknown
  | object | record | array | enum | literal | union
  | nullable | optional | and | int | catchall | strict
  | email | url | uuid | datetime | date | time | ip | regex
  | min | max | gt | lt | multipleOf

namespace Method

def name : Method → String
  | string => "string"
  | number => "number"
  | boolean => "boolean"
  | null => "null"
  | unknown => "unknown"
  | object => "object"
  | record => "record"
  | array => "array"
  | enum => "enum"
  | literal => "literal"
  | union => "union"
  | nullable => "nullable"
  | optional => "optional"
  | and => "and"
  | int => "int"
  | catchall => "catchall"
  | strict => "strict"
  | email => "email"
  | url => "url"
  | uuid => "uuid"
  | datetime => "datetime"
  | date => "date"
  | time => "time"
  | ip => "ip"
  | regex => "regex"
  | min => "min"
  | max => "max"
  | gt => "gt"
  | lt => "lt"
  | multipleOf => "multipleOf"

/-- The method of a name. -/
def ofName? (name : String) : Option Method :=
  [string, number, boolean, null, unknown, object, record, array, enum, literal, union, nullable, optional,
    and, int, catchall, strict, email, url, uuid, datetime, date, time, ip, regex, min, max, gt, lt,
    multipleOf].find? fun method => method.name = name

theorem ofName?_name (method : Method) : ofName? method.name = some method := by
  cases method <;> rfl

/-- A method as it is written. -/
def word (method : Method) : NameWord where
  name := method.name
  identifier := by cases method <;> rfl

end Method

/-! ### Calls -/

namespace Library

variable (lib : Library)

/-- A call on the library. -/
def make? : Method → List (Meaning lib.Validator) → Option lib.Validator
  | .string, [] => some lib.string
  | .number, [] => some lib.number
  | .boolean, [] => some lib.boolean
  | .null, [] => some lib.null
  | .unknown, [] => some lib.unknown
  | .object, [.record entries] => (Meaning.members? entries).map lib.object
  | .record, [.validator key, .validator element] => some (lib.record key element)
  | .array, [.validator element] => some (lib.array element)
  | .enum, [.list items] => (items.mapM Meaning.text?).map lib.enum
  | .literal, [.primitive p] => some (lib.literal p)
  | .union, [.list items] => (items.mapM Meaning.validator?).map lib.union
  | _, _ => none

/-- The call of a rule. -/
def ruleCall? {Validator : Type} : Method → List (Meaning Validator) → Option RuleCall
  | .email, [] => some (.format .email)
  | .url, [] => some (.format .url)
  | .uuid, [] => some (.format .uuid)
  | .datetime, [] => some (.format .datetime)
  | .date, [] => some (.format .date)
  | .time, [] => some (.format .time)
  | .ip, [.record [("version", .primitive (.text "v4"))]] => some (.format .ipv4)
  | .ip, [.record [("version", .primitive (.text "v6"))]] => some (.format .ipv6)
  | .regex, [.pattern source] => some (.regex source)
  | .min, [.primitive (.number bound)] => some (.min bound)
  | .max, [.primitive (.number bound)] => some (.max bound)
  | .gt, [.primitive (.number bound)] => some (.gt bound)
  | .lt, [.primitive (.number bound)] => some (.lt bound)
  | .multipleOf, [.primitive (.number divisor)] => some (.multipleOf divisor)
  | _, _ => none

/-- A call on a validator. -/
def call? (v : lib.Validator) : Method → List (Meaning lib.Validator) → Option lib.Validator
  | .nullable, [] => some (lib.nullable v)
  | .optional, [] => some (lib.optional v)
  | .and, [.validator w] => some (lib.and v w)
  | .int, [] => some (lib.int v)
  | .strict, [] => some (lib.strict v)
  | .catchall, [.validator rest] => some (lib.catchall v rest)
  | method, arguments => (ruleCall? method arguments).map (lib.restrict v)

/-- A call on what a term stands for. -/
def callOn? : Meaning lib.Validator → Method → List (Meaning lib.Validator) → Option (Meaning lib.Validator)
  | .library, method, arguments => (lib.make? method arguments).map .validator
  | .validator v, method, arguments => (lib.call? v method arguments).map .validator
  | _, _, _ => none

end Library

/-! ### Terms -/

namespace Term

variable (lib : Library)

mutual

/-- What a term stands for, if it has a meaning. -/
def denote? : Term → Option (Meaning lib.Validator)
  | .string word => some (.primitive (.text (String.ofList word.value)))
  | .number word => some (.primitive (.number word.numeral))
  | .truth b => some (.primitive (.truth b))
  | .pattern source =>
    if lib.compiles (String.ofList source.value) then some (.pattern (String.ofList source.value)) else none
  | .list items => (denoteItems? items).map .list
  | .record entries => (denoteEntries? entries).map fun pairs => .record (Entries.ofList pairs)
  | .chain calls => denoteCalls? calls .library

def denoteItems? : List Term → Option (List (Meaning lib.Validator))
  | [] => some []
  | term :: rest => do return (← denote? term) :: (← denoteItems? rest)

def denoteEntries? : List (Key × Term) → Option (List (String × Meaning lib.Validator))
  | [] => some []
  | (key, term) :: rest => do return (key.value, ← denote? term) :: (← denoteEntries? rest)

/-- Calls in order, each on what the one before it gives. -/
def denoteCalls? : List (NameWord × List Term) → Meaning lib.Validator → Option (Meaning lib.Validator)
  | [], receiver => some receiver
  | (word, arguments) :: rest, receiver => do
    let method ← Method.ofName? word.name
    let arguments ← denoteItems? arguments
    let next ← lib.callOn? receiver method arguments
    denoteCalls? rest next

end

end Term

end ZodRoutes.Zod
