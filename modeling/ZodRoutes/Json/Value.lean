/-
JSON values.

Objects are lists of members in document order.  A value read from text has no name twice in one
object; the operations here do not depend on that, and look a name up at its first member.
-/
import ZodRoutes.Entries
import ZodRoutes.Json.Number

namespace ZodRoutes.Json

/-- A JSON value, its objects in document order. -/
inductive Value where
  | null
  | bool (b : Bool)
  | num (n : Number)
  | str (s : String)
  | arr (items : List Value)
  | obj (members : List (String × Value))
  deriving Inhabited

namespace Value

/-- The member of that name, if the value is an object that has it. -/
def get? : Value → String → Option Value
  | obj members, name => Entries.get? members name
  | _, _ => none

/-- The text of a string. -/
def str? : Value → Option String
  | str s => some s
  | _ => none

/-- The truth value of a boolean. -/
def bool? : Value → Option Bool
  | bool b => some b
  | _ => none

/-- The elements of an array. -/
def arr? : Value → Option (List Value)
  | arr items => some items
  | _ => none

/-- The members of an object. -/
def obj? : Value → Option (List (String × Value))
  | obj members => some members
  | _ => none

/-- The value of a number as a binary64 number. -/
def double? : Value → Option Decimal.Double
  | num n => some n.toDouble
  | _ => none

/-- The value of a number that is a count. -/
def count? : Value → Option Nat
  | num n => n.count?
  | _ => none

/-! ### Depth -/

mutual

/-- How many arrays and objects are nested in a value, itself included. -/
def depth : Value → Nat
  | arr items => depthList items + 1
  | obj members => depthMembers members + 1
  | _ => 0

/-- The largest depth of the elements. -/
def depthList : List Value → Nat
  | [] => 0
  | item :: rest => max (depth item) (depthList rest)

/-- The largest depth of the members. -/
def depthMembers : List (String × Value) → Nat
  | [] => 0
  | (_, value) :: rest => max (depth value) (depthMembers rest)

end

/-- An element is no deeper than the list that holds it. -/
theorem depth_le_depthList {item : Value} {items : List Value} (h : item ∈ items) :
    item.depth ≤ depthList items := by
  induction items with
  | nil => simp at h
  | cons head rest ih =>
    rcases List.mem_cons.mp h with rfl | h
    · exact Nat.le_max_left ..
    · exact Nat.le_trans (ih h) (Nat.le_max_right ..)

/-- A member is no deeper than the list of members that holds it. -/
theorem depth_le_depthMembers {name : String} {value : Value} {members : List (String × Value)}
    (h : (name, value) ∈ members) : value.depth ≤ depthMembers members := by
  induction members with
  | nil => simp at h
  | cons head rest ih =>
    rcases List.mem_cons.mp h with rfl | h
    · exact Nat.le_max_left ..
    · exact Nat.le_trans (ih h) (Nat.le_max_right ..)

end Value

end ZodRoutes.Json
