/-
Reading JSON text.

The text is first cut into tokens, then the tokens are read against a stack of the arrays and objects
that are still open.  Every token takes at least one character and every step takes one token, so both
passes end.  At most 127 arrays and objects may be open at a time; a repeated name keeps its place and
takes the last value; nothing but blanks may follow the value.
-/
import ZodRoutes.Json.Value
import ZodRoutes.Text.Hexadecimal

namespace ZodRoutes.Json

/-- The words of the JSON grammar. -/
inductive Token where
  | openArray
  | closeArray
  | openObject
  | closeObject
  | comma
  | colon
  /-- A string, its escapes resolved. -/
  | str (s : String)
  /-- A number, a truth value or null. -/
  | scalar (v : Value)

namespace Token

/-- The value of four hexadecimal digits. -/
def hexFour? (a b c d : Char) : Option Nat := Text.numberIn? 16 [a, b, c, d]

/-- The character a letter after a backslash stands for. -/
def escaped? : Char → Option Char
  | '"' => some '"'
  | '\\' => some '\\'
  | '/' => some '/'
  | 'b' => some (Char.ofNat 0x8)
  | 'f' => some (Char.ofNat 0xC)
  | 'n' => some '\n'
  | 'r' => some '\r'
  | 't' => some '\t'
  | _ => none

/-- Put a character in front of the string read so far. -/
def withChar (c : Char) (rest : Option (List Char × List Char)) : Option (List Char × List Char) :=
  rest.map fun (s, rest) => (c :: s, rest)

/-- The rest of a string after its opening quote: its characters, and what follows the closing one. -/
def string? : List Char → Option (List Char × List Char)
  | [] => none
  | '"' :: rest => some ([], rest)
  | '\\' :: 'u' :: a :: b :: c :: d :: rest =>
    match hexFour? a b c d with
    | none => none
    | some high =>
      if 0xDC00 ≤ high ∧ high ≤ 0xDFFF then none
      else if 0xD800 ≤ high ∧ high ≤ 0xDBFF then
        match rest with
        | '\\' :: 'u' :: a :: b :: c :: d :: rest =>
          match hexFour? a b c d with
          | none => none
          | some low =>
            if 0xDC00 ≤ low ∧ low ≤ 0xDFFF then
              withChar (Char.ofNat (0x10000 + (high - 0xD800) * 0x400 + (low - 0xDC00))) (string? rest)
            else none
        | _ => none
      else withChar (Char.ofNat high) (string? rest)
  | '\\' :: c :: rest =>
    match escaped? c with
    | none => none
    | some c => withChar c (string? rest)
  | c :: rest => if c.toNat < 0x20 || c == '\\' then none else withChar c (string? rest)

/-- Whether a character may stand in a number. -/
def isNumeric (c : Char) : Bool :=
  c.isDigit || c == '-' || c == '+' || c == '.' || c == 'e' || c == 'E'

/-- Whether a character separates tokens and is none. -/
def isSpace (c : Char) : Bool :=
  c == ' ' || c == '\n' || c == '\r' || c == '\t'

/-- The token at the front of a text that starts with no space, and what follows it. -/
def first? : List Char → Option (Token × List Char)
  | [] => none
  | '[' :: rest => some (openArray, rest)
  | ']' :: rest => some (closeArray, rest)
  | '\x7b' :: rest => some (openObject, rest)
  | '\x7d' :: rest => some (closeObject, rest)
  | ',' :: rest => some (comma, rest)
  | ':' :: rest => some (colon, rest)
  | '"' :: rest => (string? rest).map fun (s, rest) => (str (String.ofList s), rest)
  | 'n' :: 'u' :: 'l' :: 'l' :: rest => some (scalar .null, rest)
  | 't' :: 'r' :: 'u' :: 'e' :: rest => some (scalar (.bool true), rest)
  | 'f' :: 'a' :: 'l' :: 's' :: 'e' :: rest => some (scalar (.bool false), rest)
  | c :: rest =>
    if isNumeric c then
      (Number.ofLiteral? (c :: rest.takeWhile isNumeric)).map fun n =>
        (scalar (.num n), rest.dropWhile isNumeric)
    else none

/-- Reading a string leaves less than the whole text. -/
theorem length_of_string? {text s rest : List Char} (h : string? text = some (s, rest)) :
    rest.length < text.length := by
  fun_induction string? text generalizing s <;>
    simp_all only [withChar, Option.map_eq_some_iff, Prod.exists, Prod.mk.injEq, reduceCtorEq,
      Option.some.injEq, List.length_cons] <;> grind

/-- Dropping characters from the front leaves no more than there was. -/
theorem length_dropWhile_le (p : Char → Bool) (text : List Char) :
    (text.dropWhile p).length ≤ text.length :=
  (List.dropWhile_sublist p).length_le

/-- A token takes at least one character. -/
theorem length_of_first? {text rest : List Char} {token : Token}
    (h : first? text = some (token, rest)) : rest.length < text.length := by
  unfold first? at h
  split at h <;> try grind
  · obtain ⟨⟨s, rest⟩, hs, he⟩ := Option.map_eq_some_iff.mp h
    have := length_of_string? hs
    grind
  · split at h
    · obtain ⟨n, hn, he⟩ := Option.map_eq_some_iff.mp h
      have := length_dropWhile_le isNumeric
      grind
    · simp at h

/-- The tokens of a text. -/
def ofText? (text : List Char) : Option (List Token) :=
  match text with
  | [] => some []
  | c :: rest =>
    if isSpace c then ofText? rest
    else match _h : first? (c :: rest) with
      | none => none
      | some (token, rest) => (ofText? rest).map (token :: ·)
termination_by text.length
decreasing_by
  · simp
  · exact length_of_first? _h

end Token

/-! ### From tokens to a value -/

/-- An array or object whose end has not been read, its contents so far in reverse. -/
inductive Open where
  | array (done : List Value)
  /-- An object after the name of a member. -/
  | object (done : Entries Value) (name : String)

/-- What the next token has to be. -/
inductive Expect where
  | value
  /-- The first element of an array, or its end. -/
  | firstItem
  /-- The name of a member, in an object with these members so far. -/
  | name (done : Entries Value)
  /-- The first name of an object, or its end. -/
  | firstName
  /-- The colon after this name. -/
  | colon (done : Entries Value) (name : String)
  /-- A comma or the end of the innermost open array or object, which now holds this. -/
  | next (value : Value)

/-- The largest number of arrays and objects that may be open at a time. -/
def depthLimit : Nat := 127

/-- Read on with a stack of open arrays and objects, innermost first. -/
def readTokens? (stack : List Open) : Expect → List Token → Option Value
  | .value, .scalar v :: rest | .firstItem, .scalar v :: rest => readTokens? stack (.next v) rest
  | .value, .str s :: rest | .firstItem, .str s :: rest => readTokens? stack (.next (.str s)) rest
  | .value, .openArray :: rest | .firstItem, .openArray :: rest =>
    if stack.length < depthLimit then readTokens? (.array [] :: stack) .firstItem rest else none
  | .value, .openObject :: rest | .firstItem, .openObject :: rest =>
    if stack.length < depthLimit then readTokens? stack .firstName rest else none
  | .firstItem, .closeArray :: rest =>
    match stack with
    | .array done :: stack => readTokens? stack (.next (.arr done.reverse)) rest
    | _ => none
  | .firstName, .closeObject :: rest => readTokens? stack (.next (.obj [])) rest
  | .firstName, .str s :: rest => readTokens? stack (.colon [] s) rest
  | .name done, .str s :: rest => readTokens? stack (.colon done s) rest
  | .colon done name, .colon :: rest => readTokens? (.object done name :: stack) .value rest
  | .next v, tokens =>
    match stack, tokens with
    | [], [] => some v
    | .array done :: stack, .comma :: rest => readTokens? (.array (v :: done) :: stack) .value rest
    | .array done :: stack, .closeArray :: rest =>
      readTokens? stack (.next (.arr (v :: done).reverse)) rest
    | .object done name :: stack, .comma :: rest =>
      readTokens? stack (.name (Entries.insert done name v)) rest
    | .object done name :: stack, .closeObject :: rest =>
      readTokens? stack (.next (.obj (Entries.insert done name v))) rest
    | _, _ => none
  | _, _ => none

/-- The value that a JSON text denotes; none when the text is not JSON. -/
def read? (text : String) : Option Value :=
  (Token.ofText? text.toList).bind (readTokens? [] .value)

end ZodRoutes.Json
