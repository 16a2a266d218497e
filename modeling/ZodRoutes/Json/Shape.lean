/-
Shapes that records and variants take in JSON.

A record is an object, whose members may stand in any order beside others that nobody asks for, or an
array of its fields in their order.  A variant is a tag with or without a content: an object with a
member for each, or the array of the two.  A name out of a fixed list is a string, or an object with
the name as its only member and null as the value.
-/
import ZodRoutes.Json.Value

namespace ZodRoutes.Json.Value

/-- The fields of a record of these names, each with its value if it is there. -/
def fields? (names : List String) : Value → Option (List (Option Value))
  | obj members => some (names.map (Entries.get? members))
  | arr items =>
    if items.length ≤ names.length then
      some (items.map some ++ List.replicate (names.length - items.length) none)
    else none
  | _ => none

/-- A name out of a fixed list. -/
def name? : Value → Option String
  | str s => some s
  | obj [(s, null)] => some s
  | _ => none

/-- The tag of a variant and its content, if there is one. -/
def variant? (tag content : String) : Value → Option (String × Option Value)
  | obj members => do
    let name ← (Entries.get? members tag).bind name?
    return (name, Entries.get? members content)
  | arr [name, value] => name.name?.map (·, some value)
  | _ => none

/-- Whether a content may stand beside a tag that has none: it is absent or null. -/
def isVoid : Option Value → Bool
  | none => true
  | some null => true
  | some _ => false

end ZodRoutes.Json.Value
