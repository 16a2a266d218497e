/-
The scalars of a YAML text.

Plain and quoted scalars may run over several lines: a single line break between two runs becomes a
space, further ones stay.  A block scalar keeps the lines that are indented enough; literal ones keep their
breaks, folded ones join lines that do not start with a blank.  All loops are bounded by the
characters of the text, as each round passes at least one.
-/
import ZodRoutes.Text.Hexadecimal
import ZodRoutes.Yaml.Cursor

namespace ZodRoutes.Yaml

open Text (hexChar?)

/-- The blanks and breaks between two runs of a scalar. -/
inductive Gap where
  /-- Blanks on one line. -/
  | blanks (text : String)
  /-- A first line break and the later ones; blanks around them do not count. -/
  | lines (first more : String)

/-- What a gap leaves in the text of the scalar. -/
def Gap.text : Gap → String
  | blanks text => text
  | lines first more => if first == "\n" then (if more.isEmpty then " " else more) else first ++ more

/-- Whether a gap ends a line. -/
def Gap.isLines : Gap → Bool
  | blanks _ => false
  | lines _ _ => true

/-- Pass blanks and breaks; a tab before column `indent` of a new line is refused. -/
def skipGap (indent : Nat) : Nat → Gap → Cursor → Option (Gap × Cursor)
  | 0, gap, c => some (gap, c)
  | fuel + 1, gap, c =>
    match c.peek? with
    | none => some (gap, c)
    | some char =>
      if isBlank char then
        match gap with
        | .blanks text => skipGap indent fuel (.blanks (text.push char)) (c.skip 1)
        | .lines _ _ =>
          if char == '\t' && c.column < indent then none else skipGap indent fuel gap (c.skip 1)
      else if isBreak char then
        let (text, c) := c.lineBreak
        match gap with
        | .blanks _ => skipGap indent fuel (.lines text "") c
        | .lines first more => skipGap indent fuel (.lines first (more ++ text)) c
      else some (gap, c)

/-! ### Plain scalars -/

/-- Whether a character separates or encloses the entries of a flow collection. -/
def isFlowMark (c : Char) : Bool :=
  c == ',' || c == '[' || c == ']' || c == '\x7b' || c == '\x7d'

/-- The characters of a plain scalar up to a gap or a mark that ends it; in a flow collection a colon
directly before a mark is refused. -/
def plainRun (inFlow : Bool) : List Char → Option (List Char)
  | [] => some []
  | c :: rest =>
    if isGap c then some []
    else if inFlow && c == ':' && rest.head?.any (fun d => d == '?' || isFlowMark d) then none
    else if (c == ':' && atGap rest.head?) || (inFlow && isFlowMark c) then some []
    else (plainRun inFlow rest).map (c :: ·)

/-- A plain scalar: its text, and whether it ended on a new line. -/
def plainFrom (inFlow : Bool) (indent : Nat) :
    Nat → String → Gap → Cursor → Option (String × Bool × Cursor)
  | 0, text, gap, c => some (text, gap.isLines, c)
  | fuel + 1, text, gap, c =>
    if c.atDocumentMark || c.sees '#' then some (text, gap.isLines, c)
    else match plainRun inFlow c.rest with
      | none => none
      | some [] => some (text, gap.isLines, c)
      | some run =>
        let text := text ++ gap.text ++ String.ofList run
        let c := c.skip run.length
        if c.peek?.any isGap then
          match skipGap indent (c.size + 1) (.blanks "") c with
          | none => none
          | some (gap, c) =>
            if !inFlow && c.column < indent then some (text, gap.isLines, c)
            else plainFrom inFlow indent fuel text gap c
        else some (text, false, c)

/-- The plain scalar that starts here. -/
def plain (inFlow : Bool) (indent : Nat) (c : Cursor) : Option (String × Bool × Cursor) :=
  plainFrom inFlow indent (c.size + 1) "" (.blanks "") c

/-! ### Quoted scalars -/

/-- A run of a quoted scalar: its text, how many characters it took, and whether it ended in a
backslash before a line break. -/
structure QuotedRun where
  text : List Char
  taken : Nat
  continued : Bool

/-- Put a character that took `taken` characters in front of a run. -/
def QuotedRun.cons (c : Char) (taken : Nat) (run : QuotedRun) : QuotedRun :=
  { run with text := c :: run.text, taken := taken + run.taken }

/-- A run of a single-quoted scalar up to a gap or the closing quote. -/
def singleRun : List Char → QuotedRun
  | '\'' :: '\'' :: rest => (singleRun rest).cons '\'' 2
  | c :: rest => if c == '\'' || isGap c then ⟨[], 0, false⟩ else (singleRun rest).cons c 1
  | [] => ⟨[], 0, false⟩

/-- The character that a letter after a backslash stands for. -/
def escape? : Char → Option Char
  | '0' => some (Char.ofNat 0x0)
  | 'a' => some (Char.ofNat 0x7)
  | 'b' => some (Char.ofNat 0x8)
  | 't' => some '\t'
  | '\t' => some '\t'
  | 'n' => some '\n'
  | 'v' => some (Char.ofNat 0xB)
  | 'f' => some (Char.ofNat 0xC)
  | 'r' => some '\r'
  | 'e' => some (Char.ofNat 0x1B)
  | ' ' => some ' '
  | '"' => some '"'
  | '/' => some '/'
  | '\\' => some '\\'
  | 'N' => some (Char.ofNat 0x85)
  | '_' => some (Char.ofNat 0xA0)
  | 'L' => some (Char.ofNat 0x2028)
  | 'P' => some (Char.ofNat 0x2029)
  | _ => none

/-- A run of a double-quoted scalar up to a gap, the closing quote, or a backslash before a line
break. -/
def doubleRun : List Char → Option QuotedRun
  | [] => some ⟨[], 0, false⟩
  | '\\' :: 'x' :: a :: b :: rest => do
    let c ← hexChar? [a, b]
    return (← doubleRun rest).cons c 4
  | '\\' :: 'u' :: a :: b :: c :: d :: rest => do
    let c ← hexChar? [a, b, c, d]
    return (← doubleRun rest).cons c 6
  | '\\' :: 'U' :: a :: b :: c :: d :: e :: f :: g :: h :: rest => do
    let c ← hexChar? [a, b, c, d, e, f, g, h]
    return (← doubleRun rest).cons c 10
  | '\\' :: e :: rest =>
    if isBreak e then some ⟨[], 1, true⟩
    else do
      let c ← escape? e
      return (← doubleRun rest).cons c 2
  | c :: rest =>
    if c == '"' || isGap c then some ⟨[], 0, false⟩
    else if c == '\\' then none
    else (doubleRun rest).map (·.cons c 1)

/-- A quoted scalar after its opening quote. -/
def quotedFrom (double : Bool) : Nat → String → Cursor → Option (String × Cursor)
  | 0, _, _ => none
  | fuel + 1, text, c =>
    if c.atDocumentMark || c.rest.isEmpty then none
    else
      match if double then doubleRun c.rest else some (singleRun c.rest) with
      | none => none
      | some run =>
        let text := text ++ String.ofList run.text
        let c := c.skip run.taken
        if c.sees (if double then '"' else '\'') && !run.continued then some (text, c.skip 1)
        else
          let (gap, c) : Gap × Cursor :=
            if run.continued then (.lines "" "", c.skipBreak) else (.blanks "", c)
          match skipGap 0 (c.size + 1) gap c with
          | none => none
          | some (gap, c) => quotedFrom double fuel (text ++ gap.text) c

/-- The quoted scalar that starts here. -/
def quoted (double : Bool) (c : Cursor) : Option (String × Cursor) :=
  quotedFrom double (c.size + 1) "" (c.skip 1)

/-! ### Block scalars -/

/-- What becomes of the line breaks at the end of a block scalar. -/
inductive Chomping where
  | strip
  | clip
  | keep
  deriving DecidableEq

/-- The chomping mark at the front, if there is one. -/
def chompingMark? : List Char → Option (Chomping × List Char)
  | '+' :: rest => some (.keep, rest)
  | '-' :: rest => some (.strip, rest)
  | _ => none

/-- The indentation digit at the front, zero when there is none; the digit zero is refused. -/
def indentDigit : List Char → Option (Nat × List Char)
  | c :: rest =>
    if c == '0' then none
    else if c.isDigit then some (c.toNat - '0'.toNat, rest) else some (0, c :: rest)
  | [] => some (0, [])

/-- The header of a block scalar: its chomping, its indentation, and how many characters it took. -/
def blockHeader (text : List Char) : Option (Chomping × Nat × Nat) := do
  match chompingMark? text with
  | some (chomping, rest) =>
    let (indent, rest) ← indentDigit rest
    return (chomping, indent, text.length - rest.length)
  | none =>
    let (indent, rest) ← indentDigit text
    let (chomping, rest) := if indent = 0 then (.clip, rest) else (chompingMark? rest).getD (.clip, rest)
    return (chomping, indent, text.length - rest.length)

/-- Pass the indentation and the empty lines before the next line of a block scalar.  While `indent`
is zero it is not known yet, and `deepest` is the deepest indentation met. -/
def blockBreaks (indent : Nat) : Nat → Nat → String → Cursor → Option (Nat × String × Cursor)
  | 0, deepest, breaks, c => some (deepest, breaks, c)
  | fuel + 1, deepest, breaks, c =>
    let spaces := (c.rest.takeWhile (· == ' ')).length
    let c := c.skip (if indent == 0 then spaces else min spaces (indent - c.column))
    let deepest := max deepest c.column
    if (indent == 0 || c.column < indent) && c.sees '\t' then none
    else if c.peek?.any isBreak then
      let (text, c) := c.lineBreak
      blockBreaks indent fuel deepest (breaks ++ text) c
    else some (deepest, breaks, c)

/-- The lines of a block scalar from a line that is indented enough on: the text, the last break, and
the empty lines after it. -/
def blockLines (literal : Bool) (indent : Nat) :
    Nat → String → String → String → Bool → Cursor → Option (String × String × String × Cursor)
  | 0, text, lead, trail, _, c => some (text, lead, trail, c)
  | fuel + 1, text, lead, trail, blankBefore, c =>
    if c.column ≠ indent || c.rest.isEmpty then some (text, lead, trail, c)
    else
      let blankHere := c.peek?.any isBlank
      let folded := !literal && lead == "\n" && !blankBefore && !blankHere
      let joint := if folded then (if trail.isEmpty then " " else "") else lead
      let run := c.rest.takeWhile (!isBreak ·)
      let text := text ++ joint ++ trail ++ String.ofList run
      let (lead, c) := (c.skip run.length).lineBreak
      match blockBreaks indent (c.size + 1) 0 "" c with
      | none => none
      | some (_, trail, c) => blockLines literal indent fuel text lead trail blankHere c

/-- The block scalar that starts here, inside a collection indented by `outer` (minus one outside
all). -/
def block (literal : Bool) (outer : Int) (c : Cursor) : Option (String × Cursor) := do
  let c := c.skip 1
  let (chomping, increment, taken) ← blockHeader c.rest
  let c := (c.skip taken).skipWhile isBlank
  let c := if c.sees '#' then c.skipWhile (!isBreak ·) else c
  if !atBreak c.peek? then none
  let c := c.skipBreak
  let given := if increment = 0 then 0 else outer.toNat + increment
  let (deepest, trail, c) ← blockBreaks given (c.size + 1) 0 "" c
  let indent := if given = 0 then max (max deepest (outer + 1).toNat) 1 else given
  let (text, lead, trail, c) ← blockLines literal indent (c.size + 1) "" "" trail false c
  return (match chomping with
    | .strip => text
    | .clip => text ++ lead
    | .keep => text ++ lead ++ trail, c)

end ZodRoutes.Yaml
