/-
The library that expressions are written for.

The library is not part of this project.  It is a parameter: a sort of validators, what each of them accepts,
and a function for each call that expressions make.  What the library documents about these calls is gathered
in one structure, with a law for each call, and nothing else is known of them.  Single rules keep the values
that `holds` allows, whatever that is.

An argument is passed as it is written, and a record with the entries that are written in it.  What the
language makes of numerals, names and absence is for the reading to say.  A count is exact in every
reading, since no text and no list is longer than the counts that are binary64 numbers together with all
smaller ones.
-/
import ZodRoutes.Proofs.Zod.Reading

namespace ZodRoutes.Zod

open Decimal (Numeral)
open Json (Value)
open Schema (Format Rule Subject)

/-! ### Calls of rules -/

/-- A call that states a rule, with its argument. -/
inductive RuleCall where
  | format (f : Format)
  | regex (source : String)
  | min (bound : Numeral)
  | max (bound : Numeral)
  | gt (bound : Numeral)
  | lt (bound : Numeral)
  | multipleOf (divisor : Numeral)

/-- The rule that a call states about values of a sort. -/
def RuleCall.rule? : Subject → RuleCall → Option Rule
  | .text, .format f => some (.format f)
  | .text, .regex source => some (.pattern source)
  | .text, .min bound => (count? bound).map .minLength
  | .text, .max bound => (count? bound).map .maxLength
  | .number, .min bound => bound.toDouble?.map .min
  | .number, .max bound => bound.toDouble?.map .max
  | .number, .gt bound => bound.toDouble?.map .greaterThan
  | .number, .lt bound => bound.toDouble?.map .lessThan
  | .number, .multipleOf divisor => divisor.toDouble?.map .multipleOf
  | .list, .min bound => (count? bound).map .minItems
  | .list, .max bound => (count? bound).map .maxItems
  | _, _ => none

/-- The call states the rule. -/
def RuleCall.States (call : RuleCall) (rule : Rule) : Prop :=
  call.rule? rule.subject = some rule

/-! ### Objects -/

/-- The members of an object are as their validators say.  Each described member is asked for, whether it is there
or not; other members are as `rest` says, or refused by a closed object. -/
structure Fits {σ : Type} (reading : Reading) (accepts : σ → Input → Prop) (members : Entries σ)
    (rest : Option σ) (closed : Bool) (given : List (String × Value)) : Prop where
  described : ∀ name v, Entries.get? members name = some v → reading.isMember name →
    accepts v (reading.member given name)
  other : ∀ name value, ¬ (name ∈ Entries.names members ∧ reading.isMember name) →
    Entries.get? given name = some value → ∀ v ∈ rest, accepts v (.value value)
  refused : closed → rest = none → ∀ name ∈ Entries.names given,
    name ∈ Entries.names members ∧ reading.isMember name

/-- An object with such members. -/
def IsObject (fits : List (String × Value) → Prop) (value : Value) : Prop :=
  ∃ members, value = .obj members ∧ fits members

/-! ### The library -/

/-- The calls of the library. -/
structure Library where
  Validator : Type
  accepts : Validator → Input → Prop
  /-- The validator has the call of the rule and states it beside all that it states already. -/
  offers : Validator → Rule → Prop
  /-- A regular expression can be made from the source. -/
  compiles : String → Bool
  string : Validator
  number : Validator
  boolean : Validator
  null : Validator
  unknown : Validator
  object (members : Entries Validator) : Validator
  record (key element : Validator) : Validator
  array (element : Validator) : Validator
  enum (texts : List String) : Validator
  literal (primitive : Primitive) : Validator
  union (branches : List Validator) : Validator
  nullable (v : Validator) : Validator
  optional (v : Validator) : Validator
  and (v w : Validator) : Validator
  int (v : Validator) : Validator
  strict (v : Validator) : Validator
  catchall (v rest : Validator) : Validator
  restrict (v : Validator) (call : RuleCall) : Validator

namespace Library

/-- What the library documents, for scripts that are so read and rules that so hold. -/
structure Documented (lib : Library) (reading : Reading) (holds : Rule → Value → Prop) : Prop where
  string : ∀ input, lib.accepts lib.string input ↔ input.Is fun value => ∃ s, value = .str s
  number : ∀ input, lib.accepts lib.number input ↔ input.Is fun value => ∃ n, value = .num n
  boolean : ∀ input, lib.accepts lib.boolean input ↔ input.Is fun value => ∃ b, value = .bool b
  null : ∀ input, lib.accepts lib.null input ↔ input.Is fun value => value = .null
  /-- Every value is accepted, and what is missing where absence counts as a value. -/
  unknown : ∀ input, lib.accepts lib.unknown input ↔ (input.Missing → reading.absence)
  object : ∀ members input, lib.accepts (lib.object members) input ↔
    input.Is (IsObject (Fits reading lib.accepts members none false))
  strict : ∀ members input, lib.accepts (lib.strict (lib.object members)) input ↔
    input.Is (IsObject (Fits reading lib.accepts members none true))
  catchall : ∀ members rest input, lib.accepts (lib.catchall (lib.object members) rest) input ↔
    input.Is (IsObject (Fits reading lib.accepts members (some rest) false))
  record : ∀ key element input, lib.accepts (lib.record key element) input ↔
    input.Is (IsObject fun members => ∀ name item, Entries.get? members name = some item →
      lib.accepts key (.value (.str name)) ∧ lib.accepts element (.value item))
  array : ∀ element input, lib.accepts (lib.array element) input ↔
    input.Is fun value => ∃ items, value = .arr items ∧ ∀ item ∈ items, lib.accepts element (.value item)
  enum : ∀ texts input, lib.accepts (lib.enum texts) input ↔ input.Is fun value => ∃ s ∈ texts, value = .str s
  /-- What equals the value that the primitive stands for. -/
  literal : ∀ primitive stated, reading.primitive? primitive = some stated →
    ∀ input, input.EachNumber reading.IsNumber → (lib.accepts (lib.literal primitive) input ↔ input.Is stated.Same)
  union : ∀ branches input, lib.accepts (lib.union branches) input ↔ ∃ v ∈ branches, lib.accepts v input
  nullable : ∀ v input, lib.accepts (lib.nullable v) input ↔ input = .value .null ∨ lib.accepts v input
  optional : ∀ v input, lib.accepts (lib.optional v) input ↔ input = .absent ∨ lib.accepts v input
  /-- Both give back what they are given, members that they do not describe apart, so their results never clash. -/
  and : ∀ v w input, lib.accepts (lib.and v w) input ↔ lib.accepts v input ∧ lib.accepts w input
  int : ∀ input, input.EachNumber reading.IsNumber →
    (lib.accepts (lib.int lib.number) input ↔ input.Is fun value => ∃ n, value = .num n ∧ n.isWhole)
  string_offers : ∀ rule : Rule, rule.subject = .text → lib.offers lib.string rule
  number_offers : ∀ rule : Rule, rule.subject = .number → lib.offers lib.number rule
  int_offers : ∀ rule : Rule, rule.subject = .number → lib.offers (lib.int lib.number) rule
  array_offers : ∀ element, ∀ rule : Rule, rule.subject = .list → lib.offers (lib.array element) rule
  /-- The call of a rule keeps the values that the rule allows. -/
  restrict : ∀ v call rule, lib.offers v rule → RuleCall.States call rule →
    ∀ input, lib.accepts (lib.restrict v call) input ↔ lib.accepts v input ∧ input.Allowed (holds rule)
  restrict_offers : ∀ v call rule, lib.offers v rule → RuleCall.States call rule →
    ∀ later, lib.offers v later → reading.drops rule later = false → lib.offers (lib.restrict v call) later
  /-- A later bound that replaces an earlier one counts instead of it. -/
  restrict_replaces : ∀ v call rule, lib.offers v rule → RuleCall.States call rule →
    ∀ call' later, RuleCall.States call' later → reading.drops rule later →
      ∀ input, lib.accepts (lib.restrict (lib.restrict v call) call') input ↔
        lib.accepts (lib.restrict v call') input

end Library

end ZodRoutes.Zod
