/-
How scripts are read.

An expression is a piece of a script, and the language of scripts has its own way with numbers, with the
members of objects and with what is missing.  Numerals stand for binary64 numbers there.  An entry named
`__proto__` makes no member of a record, and under some names every object inherits a function, so that a
member of such a name is not just absent where an object does not have it.  The library follows the
language: what accepts every value accepts absence too, and a second bound on the same end of a list
replaces the first.

A *reading* says what is made of all this.  There are two of them: that of scripts, and a plain one, by which
numerals are exact, names are just names, and absence is no value.  What is proved for any reading is used
with the first for what an expression does, and with the second for what its text tells about a tree.
-/
import ZodRoutes.Proofs.Schema.Accepts
import ZodRoutes.Proofs.Zod.Word

namespace ZodRoutes

/-! ### Numbers -/

namespace Json

open Decimal (Double)

/-- The number has the value of a binary64 number. -/
def Number.IsBinary64 (n : Number) : Prop :=
  ∃ x : Double, (Number.real x).exact = n.exact

theorem Number.natAbs_exact_real (x : Double) : (Number.real x).exact.natAbs = x.units := by
  show (if x.negative then -(x.units : Int) else x.units).natAbs = x.units
  split
  · rw [Int.natAbs_neg, Int.natAbs_natCast]
  · rw [Int.natAbs_natCast]

/-- Every number in a value is one of these. -/
inductive Value.EachNumber (p : Number → Prop) : Value → Prop
  | null : Value.EachNumber p .null
  | bool {b : Bool} : Value.EachNumber p (.bool b)
  | num {n : Number} (number : p n) : Value.EachNumber p (.num n)
  | str {s : String} : Value.EachNumber p (.str s)
  | arr {items : List Value} (each : ∀ item ∈ items, Value.EachNumber p item) : Value.EachNumber p (.arr items)
  | obj {members : List (String × Value)} (each : ∀ member ∈ members, Value.EachNumber p member.2) :
      Value.EachNumber p (.obj members)

namespace Value.EachNumber

variable {p : Number → Prop}

theorem item {items : List Value} (h : (Value.arr items).EachNumber p) {item : Value} (hitem : item ∈ items) :
    item.EachNumber p := by
  cases h with
  | arr each => exact each item hitem

theorem member {members : List (String × Value)} (h : (Value.obj members).EachNumber p) {name : String}
    {value : Value} (hget : Entries.get? members name = some value) : value.EachNumber p := by
  cases h with
  | obj each => exact each _ (Entries.mem_of_get? hget)

/-- Where every number will do, every value does. -/
theorem of_forall (h : ∀ n, p n) : ∀ value : Value, value.EachNumber p
  | .null => .null
  | .bool _ => .bool
  | .num n => .num (h n)
  | .str _ => .str
  | .arr items => .arr fun item _ => of_forall h item
  | .obj members => .obj fun member _ => of_forall h member.2
termination_by value => sizeOf value
decreasing_by
  · next hitem =>
      have := List.sizeOf_lt_of_mem hitem
      simp only [Value.arr.sizeOf_spec]
      omega
  · next hmember =>
      obtain ⟨name, value⟩ := member
      have := List.sizeOf_lt_of_mem hmember
      simp only [Prod.mk.sizeOf_spec, Value.obj.sizeOf_spec] at this ⊢
      omega

end Value.EachNumber

end Json

namespace Zod

open Decimal (Double Numeral)
open Json (Value)
open Schema (Literal Rule)

/-- The number that a numeral says: an integer, or the nearest binary64 number when it has a point or a
power of ten. -/
def number? (n : Numeral) : Option Json.Number :=
  if n.fraction.isSome || n.power.isSome then n.toDouble?.map .real
  else some (.int (if n.negative then -(n.value : Int) else n.value))

/-- The count that a numeral says. -/
def count? (n : Numeral) : Option Nat :=
  (number? n).bind Json.Number.count?

/-- **The nearest binary64 number of a numeral is the number that the numeral says**, if that is one. -/
theorem toDouble?_of_number? {numeral : Numeral} {n : Json.Number} (h : number? numeral = some n)
    (hn : n.IsBinary64) : ∃ x : Double, numeral.toDouble? = some x ∧ (Json.Number.real x).exact = n.exact := by
  unfold number? at h
  by_cases hparts : (numeral.fraction.isSome || numeral.power.isSome) = true
  · rw [if_pos hparts, Option.map_eq_some_iff] at h
    obtain ⟨x, hx, rfl⟩ := h
    exact ⟨x, hx, rfl⟩
  · rw [if_neg hparts] at h
    cases h
    simp only [Bool.or_eq_true, Option.isSome_iff_ne_none, not_or, not_not] at hparts
    obtain ⟨z, hz⟩ := hn
    have hunits : numeral.value * Double.unitsPerOne = z.units := by
      rw [← Json.Number.natAbs_exact_real, hz]
      show _ = ((if numeral.negative then -(numeral.value : Int) else numeral.value) *
        (Double.unitsPerOne : Int)).natAbs
      split <;> simp [Int.natAbs_mul]
    obtain ⟨y, hy, hnegative, hsame⟩ := Numeral.toDouble?_of_units hparts.1 hparts.2 hunits
    refine ⟨y, hy, ?_⟩
    show (if y.negative then -(y.units : Int) else y.units) =
      (if numeral.negative then -(numeral.value : Int) else numeral.value) * (Double.unitsPerOne : Int)
    rw [hnegative, hsame, ← hunits]
    split <;> simp

/-! ### Primitives -/

/-- A primitive value as it is written. -/
inductive Primitive where
  | text (s : String)
  | number (numeral : Numeral)
  | truth (b : Bool)

/-- The literal that a primitive says. -/
def Primitive.literal? : Primitive → Option Literal
  | .text s => some (.str s)
  | .number numeral => (number? numeral).map .num
  | .truth b => some (.bool b)

/-! ### What is asked about -/

/-- What a validator is asked about: a value, or the lack of one where an object does not have a member. -/
inductive Input where
  | value (value : Value)
  | absent
  /-- A function that every object inherits under the name of the member. -/
  | inherited

namespace Input

/-- A value that is accepted. -/
def Is (accepts : Value → Prop) : Input → Prop
  | .value v => accepts v
  | _ => False

/-- A value that is allowed, or no value. -/
def Allowed (allowed : Value → Prop) : Input → Prop
  | .value v => allowed v
  | _ => True

/-- No value. -/
def Missing : Input → Prop
  | .value _ => False
  | _ => True

/-- Every number in the value is one of these. -/
def EachNumber (p : Json.Number → Prop) : Input → Prop :=
  Allowed fun value => value.EachNumber p

end Input

/-! ### Readings -/

/-- A later bound of the same end of a list. -/
def sameEnd : Rule → Rule → Bool
  | .minItems _, .minItems _ => true
  | .maxItems _, .maxItems _ => true
  | _, _ => false

/-- How scripts are read. -/
structure Reading where
  /-- Whether what accepts every value accepts absence too. -/
  absence : Bool
  /-- Whether an entry of that name makes a member of a record. -/
  isMember : String → Bool
  /-- Whether every object inherits a function under that name. -/
  isInherited : String → Bool
  /-- Whether a later bound of the same end of a list replaces an earlier one. -/
  replaces : Bool
  /-- The numbers that there are. -/
  IsNumber : Json.Number → Prop
  /-- The number that a numeral stands for. -/
  number? : Numeral → Option Json.Number
  /-- A numeral that says a number that there is stands for it. -/
  stands : ∀ {numeral n}, Zod.number? numeral = some n → IsNumber n →
    ∃ m, number? numeral = some m ∧ m.exact = n.exact

/-- The names under which every object inherits a function. -/
def inheritedNames : List String :=
  ["constructor", "__defineGetter__", "__defineSetter__", "hasOwnProperty", "__lookupGetter__",
    "__lookupSetter__", "isPrototypeOf", "propertyIsEnumerable", "toString", "valueOf", "toLocaleString"]

namespace Reading

/-- By the letter. -/
def plain : Reading where
  absence := false
  isMember _ := true
  isInherited _ := false
  replaces := false
  IsNumber _ := True
  number? := Zod.number?
  stands h _ := ⟨_, h, rfl⟩

/-- As scripts are. -/
def script : Reading where
  absence := true
  isMember name := name != "__proto__"
  isInherited name := inheritedNames.contains name
  replaces := true
  IsNumber := Json.Number.IsBinary64
  number? n := n.toDouble?.map .real
  stands h hn := by
    obtain ⟨x, hx, hexact⟩ := toDouble?_of_number? h hn
    exact ⟨.real x, by rw [hx]; rfl, hexact⟩

variable (reading : Reading)

/-- The value that a primitive stands for. -/
def primitive? : Primitive → Option Value
  | .text s => some (.str s)
  | .number numeral => (reading.number? numeral).map .num
  | .truth b => some (.bool b)

/-- What there is under a name that an object does not have. -/
def missing (name : String) : Input :=
  if reading.isInherited name then .inherited else .absent

/-- What there is under a name. -/
def member (members : List (String × Value)) (name : String) : Input :=
  match Entries.get? members name with
  | some value => .value value
  | none => reading.missing name

/-- The later rule takes the place of the earlier one. -/
def drops (rule later : Rule) : Bool :=
  reading.replaces && sameEnd rule later

/-- A literal of such numbers is what its primitive stands for. -/
theorem same_of_literal? {p : Primitive} {l : Literal} (h : p.literal? = some l)
    (hl : l.toValue.EachNumber reading.IsNumber) :
    ∃ stated, reading.primitive? p = some stated ∧ ∀ value, stated.Same value ↔ l.toValue.Same value := by
  cases p with
  | text s =>
      cases h
      exact ⟨_, rfl, fun _ => Iff.rfl⟩
  | truth b =>
      cases h
      exact ⟨_, rfl, fun _ => Iff.rfl⟩
  | number numeral =>
      rw [Primitive.literal?, Option.map_eq_some_iff] at h
      obtain ⟨n, hn, rfl⟩ := h
      cases hl with
      | num hnumber =>
          obtain ⟨m, hm, hexact⟩ := reading.stands hn hnumber
          refine ⟨.num m, by rw [primitive?, hm]; rfl, fun value => ?_⟩
          cases value with
          | num k =>
              show m.exact = k.exact ↔ n.exact = k.exact
              rw [hexact]
          | _ => exact Iff.rfl

end Reading

end Zod

end ZodRoutes
