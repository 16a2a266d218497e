/-
JSON values as text, without blanks between the parts.
-/
import ZodRoutes.Json.Value
import ZodRoutes.Text.Joined
import ZodRoutes.Text.Quoted

namespace ZodRoutes.Json.Value

mutual

/-- The compact JSON text of a value. -/
def text : Value → String
  | null => "null"
  | bool true => "true"
  | bool false => "false"
  | num n => n.text
  | str s => Text.quoted s
  | arr items => "[" ++ Text.joined "," (itemTexts items) ++ "]"
  | obj members => "\x7b" ++ Text.joined "," (memberTexts members) ++ "\x7d"

/-- The texts of the elements. -/
def itemTexts : List Value → List String
  | [] => []
  | item :: rest => text item :: itemTexts rest

/-- The texts of the members, each with its quoted name in front. -/
def memberTexts : List (String × Value) → List String
  | [] => []
  | (name, value) :: rest => (Text.quoted name ++ ":" ++ text value) :: memberTexts rest

end

end ZodRoutes.Json.Value
