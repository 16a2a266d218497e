/-
The tokens of a YAML text.

Indentation becomes brackets: a stack holds the columns of the open block collections, a deeper column
opens one and a shallower one closes those that are deeper.  Whether a scalar or a flow collection is a
key shows only at the colon behind it, so its place in the token list is remembered, one place per level
of flow collections, and the key mark is put in there once the colon is met.  Such a key has to be on one
line and at most 1024 bytes long; where a key is bound to stand, not meeting its colon is an error.
-/
import ZodRoutes.Yaml.Scalar
import ZodRoutes.Yaml.Tag

namespace ZodRoutes.Yaml

/-- The words of the YAML grammar. -/
inductive Token where
  | directive (directive : Directive)
  | documentStart
  | documentEnd
  | blockSequenceStart
  | blockMappingStart
  | blockEnd
  | flowSequenceStart
  | flowSequenceEnd
  | flowMappingStart
  | flowMappingEnd
  | blockEntry
  | flowEntry
  | key
  | value
  | anchor (name : String)
  | alias (name : String)
  /-- A tag, cut behind its handle; the handle of one that has none is empty. -/
  | tag (handle body : String)
  /-- A scalar, and whether it is plain. -/
  | scalar (text : String) (plain : Bool)
  deriving DecidableEq

/-- A token that may turn out to start a key. -/
structure Candidate where
  /-- How many tokens stand before it. -/
  number : Nat
  /-- Whether a key is bound to stand there. -/
  required : Bool
  line : Nat
  column : Nat
  /-- How many bytes of the line stand before it. -/
  bytes : Nat

/-- The largest number of bytes from the start of a key to its colon. -/
def keyLimit : Nat := 1024

/-- A text that is being cut into tokens. -/
structure Scanner where
  cursor : Cursor
  /-- The tokens so far, the last one first. -/
  tokens : List Token
  /-- How many tokens there are so far. -/
  count : Nat
  keyAllowed : Bool
  /-- The column of the innermost open block collection, minus one outside all. -/
  indent : Int
  /-- The columns around it, innermost first. -/
  outer : List Int
  /-- The candidate of this level of flow collections. -/
  candidate : Option Candidate
  /-- The candidates of the levels around it, innermost first. -/
  candidates : List (Option Candidate)

namespace Scanner

/-- The start of a text. -/
def start (text : List Char) : Scanner :=
  { cursor := .start text, tokens := [], count := 0, keyAllowed := true, indent := -1, outer := [],
    candidate := none, candidates := [] }

/-- Whether the position is inside a flow collection. -/
def inFlow (s : Scanner) : Bool := !s.candidates.isEmpty

/-- The column of the position. -/
def column (s : Scanner) : Int := s.cursor.column

/-- Add a token at the end. -/
def push (s : Scanner) (token : Token) : Scanner :=
  { s with tokens := token :: s.tokens, count := s.count + 1 }

/-- Put a token in behind the first `number` tokens. -/
def insertAt (s : Scanner) (number : Nat) (token : Token) : Scanner :=
  let later := s.count - number
  { s with tokens := s.tokens.take later ++ token :: s.tokens.drop later, count := s.count + 1 }

/-- Pass `n` characters. -/
def skip (s : Scanner) (n : Nat) : Scanner := { s with cursor := s.cursor.skip n }

/-- Say whether a key may start next. -/
def allowKey (s : Scanner) (allowed : Bool) : Scanner := { s with keyAllowed := allowed }

/-! ### Keys -/

/-- Give up the candidate of this level; one that is bound to be a key cannot be given up. -/
def dropCandidate (s : Scanner) : Option Scanner :=
  if s.candidate.any (·.required) then none else some { s with candidate := none }

/-- Take the next token as a candidate, where a key may start. -/
def addCandidate (s : Scanner) : Option Scanner :=
  if s.keyAllowed then do
    let s ← s.dropCandidate
    return { s with candidate := some ⟨s.count, !s.inFlow && s.indent == s.column, s.cursor.line,
      s.cursor.column, s.cursor.bytes⟩ }
  else some s

/-- A candidate, unless it is on an earlier line or too far back; then it must not be bound to be a
key. -/
def fresh? (c : Cursor) (candidate : Option Candidate) : Option (Option Candidate) :=
  match candidate with
  | none => some none
  | some k =>
    if k.line < c.line || k.bytes + keyLimit < c.bytes then
      if k.required then none else some none
    else some (some k)

/-- Give up the candidates of all levels that are no longer fresh. -/
def dropStale (s : Scanner) : Option Scanner := do
  let candidate ← fresh? s.cursor s.candidate
  let candidates ← s.candidates.mapM (fresh? s.cursor)
  return { s with candidate := candidate, candidates := candidates }

/-! ### Indentation -/

/-- Open a block collection at a column that is deeper than the innermost one, by a token that `add`
puts into the list. -/
def roll (s : Scanner) (column : Int) (add : Scanner → Scanner) : Scanner :=
  if !s.inFlow && s.indent < column then
    add { s with outer := s.indent :: s.outer, indent := column }
  else s

/-- Close the block collections that are deeper than a column; `outer` holds the columns around. -/
def unrollFrom (column : Int) : List Int → Scanner → Scanner
  | [], s => s
  | around :: outer, s =>
    if column < s.indent then
      unrollFrom column outer { s.push .blockEnd with indent := around, outer := outer }
    else s

/-- Close the block collections that are deeper than a column. -/
def unroll (s : Scanner) (column : Int) : Scanner :=
  if s.inFlow then s else unrollFrom column s.outer s

/-! ### Tokens -/

/-- Pass blanks, comments, line breaks and a byte order mark at the start of a line; after a line break a
key may start.  Tabs count as blanks only where no block collection can start. -/
def skipBetween : Nat → Scanner → Scanner
  | 0, s => s
  | fuel + 1, s =>
    let c := s.cursor.skipByteOrderMark
    let c := c.skipWhile fun c => c == ' ' || ((s.inFlow || !s.keyAllowed) && c == '\t')
    let c := if c.sees '#' then c.skipWhile (!isBreak ·) else c
    if c.peek?.any isBreak then
      skipBetween fuel { s with cursor := c.skipBreak, keyAllowed := s.keyAllowed || !s.inFlow }
    else { s with cursor := c }

/-- A directive, which takes the whole of its line but for a comment. -/
def directive (s : Scanner) : Option Scanner := do
  let s ← (s.unroll (-1)).dropCandidate
  let s := s.skip 1
  let (directive, rest) ← Directive.cut? s.cursor.rest
  let c := (s.cursor.skip (s.cursor.rest.length - rest.length)).skipWhile isBlank
  let c := if c.sees '#' then c.skipWhile (!isBreak ·) else c
  if !atBreak c.peek? then none
  return ({ s with cursor := c.skipBreak }.push (.directive directive)).allowKey false

/-- The start or the end of a document. -/
def documentMark (s : Scanner) (token : Token) : Option Scanner := do
  let s ← (s.unroll (-1)).dropCandidate
  return ((s.skip 3).push token).allowKey false

/-- The start of a flow collection, which has a level of its own. -/
def flowStart (s : Scanner) (token : Token) : Option Scanner := do
  let s ← s.addCandidate
  let s := { s with candidate := none, candidates := s.candidate :: s.candidates }
  return ((s.skip 1).push token).allowKey true

/-- The end of a flow collection. -/
def flowEnd (s : Scanner) (token : Token) : Option Scanner := do
  let s ← s.dropCandidate
  let s := match s.candidates with
    | [] => s
    | candidate :: rest => { s with candidate := candidate, candidates := rest }
  return ((s.skip 1).push token).allowKey false

/-- The comma between the entries of a flow collection. -/
def flowEntry (s : Scanner) : Option Scanner := do
  let s ← s.dropCandidate
  return ((s.skip 1).push .flowEntry).allowKey true

/-- The dash before an entry of a block sequence. -/
def blockEntry (s : Scanner) : Option Scanner := do
  if !s.inFlow && !s.keyAllowed then none
  let s := s.roll s.column (·.push .blockSequenceStart)
  let s ← s.dropCandidate
  return ((s.skip 1).push .blockEntry).allowKey true

/-- The question mark before a key. -/
def explicitKey (s : Scanner) : Option Scanner := do
  if !s.inFlow && !s.keyAllowed then none
  let s := s.roll s.column (·.push .blockMappingStart)
  let s ← s.dropCandidate
  return ((s.skip 1).push .key).allowKey !s.inFlow

/-- The colon before a value; a candidate before it becomes a key. -/
def valueMark (s : Scanner) : Option Scanner := do
  match s.candidate with
  | some k =>
    let s := s.insertAt k.number .key
    let s := s.roll k.column (·.insertAt k.number .blockMappingStart)
    return (({ s with candidate := none }.skip 1).push .value).allowKey false
  | none =>
    if !s.inFlow && !s.keyAllowed then none
    let s := s.roll s.column (·.push .blockMappingStart)
    return ((s.skip 1).push .value).allowKey !s.inFlow

/-- Whether the name of an anchor may end at a place. -/
def endsName (place : Option Char) : Bool :=
  atGap place || place.any ("?:,]\x7d%@`".toList.contains ·)

/-- An anchor or an alias. -/
def reference (s : Scanner) (token : String → Token) : Option Scanner := do
  let s ← s.addCandidate
  let s := s.skip 1
  let name := s.cursor.rest.takeWhile isNamePart
  let s := s.skip name.length
  if name.isEmpty || !endsName s.cursor.peek? then none
  return (s.push (token (String.ofList name))).allowKey false

/-- A tag. -/
def tag (s : Scanner) : Option Scanner := do
  let s ← s.addCandidate
  let (handle, body, rest) ← tagCut? s.cursor.rest
  let s := s.skip (s.cursor.rest.length - rest.length)
  if !(atGap s.cursor.peek? || (s.inFlow && s.cursor.sees ',')) then none
  return (s.push (.tag (String.ofList handle) (String.ofList body))).allowKey false

/-- A block scalar. -/
def blockScalar (s : Scanner) (literal : Bool) : Option Scanner := do
  let s ← s.dropCandidate
  let (text, c) ← block literal s.indent s.cursor
  return ({ s with cursor := c }.push (.scalar text false)).allowKey true

/-- A quoted scalar. -/
def quotedScalar (s : Scanner) (double : Bool) : Option Scanner := do
  let s ← s.addCandidate
  let (text, c) ← quoted double s.cursor
  return ({ s with cursor := c }.push (.scalar text false)).allowKey false

/-- A plain scalar; when it ended on a new line, a key may start there. -/
def plainScalar (s : Scanner) : Option Scanner := do
  let s ← s.addCandidate
  let (text, onNewLine, c) ← plain s.inFlow (s.indent + 1).toNat s.cursor
  return ({ s with cursor := c }.push (.scalar text true)).allowKey onNewLine

/-- Whether a plain scalar may start with `char` before `next`. -/
def startsPlain (s : Scanner) (char : Char) (next : Option Char) : Bool :=
  !(isGap char || "-?:,[]\x7b\x7d#&*!|>'\"%@`".toList.contains char) ||
    (char == '-' && !next.any isBlank) ||
    (!s.inFlow && (char == '?' || char == ':') && !atGap next)

/-- The token that starts with `char`. -/
def token (s : Scanner) (char : Char) : Option Scanner :=
  let next := s.cursor.peekAt? 1
  if s.cursor.column == 0 && char == '%' then s.directive
  else if s.cursor.atDocumentMark then
    s.documentMark (if char == '-' then .documentStart else .documentEnd)
  else if char == '[' then s.flowStart .flowSequenceStart
  else if char == '\x7b' then s.flowStart .flowMappingStart
  else if char == ']' then s.flowEnd .flowSequenceEnd
  else if char == '\x7d' then s.flowEnd .flowMappingEnd
  else if char == ',' then s.flowEntry
  else if char == '-' && atGap next then s.blockEntry
  else if char == '?' && (s.inFlow || atGap next) then s.explicitKey
  else if char == ':' && (s.inFlow || atGap next) then s.valueMark
  else if char == '*' then s.reference .alias
  else if char == '&' then s.reference .anchor
  else if char == '!' then s.tag
  else if char == '|' && !s.inFlow then s.blockScalar true
  else if char == '>' && !s.inFlow then s.blockScalar false
  else if char == '\'' then s.quotedScalar false
  else if char == '"' then s.quotedScalar true
  else if s.startsPlain char next then s.plainScalar
  else none

/-- The tokens from here to the end of the text. -/
def finish : Nat → Scanner → Option (List Token)
  | 0, _ => none
  | fuel + 1, s => do
    let s := skipBetween (s.cursor.size + 1) s
    let s ← s.dropStale
    let s := s.unroll s.column
    match s.cursor.peek? with
    | none =>
      let s ← (s.unroll (-1)).dropCandidate
      return s.tokens.reverse
    | some char => finish fuel (← s.token char)

end Scanner

/-- The tokens of a text. -/
def Token.ofText? (text : List Char) : Option (List Token) :=
  if text.all isPrintable then Scanner.finish (text.length + 1) (Scanner.start text) else none

end ZodRoutes.Yaml
