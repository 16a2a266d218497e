/-
Names of routes.

The name of a route is made from any text: every character that is not an ASCII letter or digit becomes
a space, the text is cut into words, and the words are joined in camel case.  Words end at a space, where a
capital follows a small letter, between letters and digits, and before the last of several capitals when a
small letter follows it.  A space always ends a word, so an empty word at the front leaves the next word
its capital.  A name that would start with a digit, or have nothing in it, gets an underscore in front.
-/
namespace ZodRoutes.Document

namespace RouteName

/-- Whether a word ends between `a` and `b`, with `next` after them. -/
def endsBetween (a b : Char) (next : Option Char) : Bool :=
  (a.isLower && b.isUpper) || (a.isAlpha && b.isDigit) || (a.isDigit && b.isAlpha) ||
    (a.isUpper && b.isUpper && next.any Char.isLower)

/-- The words of a text after the characters `current`, read backwards, of a word already begun. -/
def wordsFrom (current : List Char) : List Char → List (List Char)
  | [] => [current.reverse]
  | a :: rest =>
    if a = ' ' then current.reverse :: wordsFrom [] rest
    else match rest with
      | [] => [(a :: current).reverse]
      | b :: others =>
        if endsBetween a b others.head? then (a :: current).reverse :: wordsFrom [] (b :: others)
        else wordsFrom (a :: current) (b :: others)

/-- A word with a capital in front and small letters after it. -/
def capitalized : List Char → List Char
  | [] => []
  | first :: rest => first.toUpper :: rest.map Char.toLower

/-- The words in camel case: the first in small letters, the others capitalized. -/
def camel : List (List Char) → List Char
  | [] => []
  | first :: rest => first.map Char.toLower ++ rest.flatMap capitalized

/-- A character that may stand in a name, or a space. -/
def cleaned (c : Char) : Char := if c.isAlphanum then c else ' '

end RouteName

open RouteName in
/-- The name of a route made from a text. -/
def routeName (raw : String) : String :=
  let name := camel (wordsFrom [] (raw.toList.map cleaned))
  match name with
  | [] => "_"
  | first :: _ => String.ofList (if first.isDigit then '_' :: name else name)

end ZodRoutes.Document
