/-
Texts put one after the other with a separator between neighbours.
-/
namespace ZodRoutes.Text

/-- The texts in order, with `separator` between each two neighbours. -/
def joined (separator : String) : List String → String
  | [] => ""
  | [text] => text
  | text :: rest => text ++ separator ++ joined separator rest

theorem joined_singleton (separator text : String) : joined separator [text] = text := rfl

/-- The first text, then each later one after a separator of its own. -/
theorem joined_cons_cons (separator first second : String) (rest : List String) :
    joined separator (first :: second :: rest) =
      first ++ separator ++ joined separator (second :: rest) := rfl

end ZodRoutes.Text
