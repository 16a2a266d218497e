/-
The nodes of a YAML text.

A document is a tree of scalars, sequences and mappings.  A node with an anchor can be used again by an
alias after it.  Anchors are numbered by how many names have been given so far, so an anchor that gives a
name again can take the number of an earlier one; an alias stands for the last node in the document that
has its number.  An alias to a name that has not been given is refused, and so is one that stands for a
node around it, as its value would have no end.  Where a node may be left out, an empty plain scalar stands
for it.

The reader takes the tokens one by one; between two of them it makes at most three calls, which bounds
the recursion.
-/
import ZodRoutes.Yaml.Resolution
import ZodRoutes.Yaml.Token

namespace ZodRoutes.Yaml

open Json (Value)

/-- A tree of a document. -/
inductive Node where
  /-- A scalar, and whether it is plain. -/
  | scalar (text : String) (plain : Bool)
  | sequence (items : List Node)
  | mapping (entries : List (Node × Node))
  /-- The use of the node with a number. -/
  | reference (number : Nat)
  | tagged (tag : String) (node : Node)
  /-- A node with the number of its anchor. -/
  | anchored (number : Nat) (node : Node)
  deriving Inhabited

namespace Node

/-- The node that stands where none is written. -/
def empty : Node := scalar "" true

/-- What is left to read, and what names stand for. -/
structure State where
  tokens : List Token
  /-- The numbers of the anchors by name, the last one of each name. -/
  anchors : Entries Nat
  /-- How the tags with a handle start. -/
  handles : Entries String

/-- Whether no token is left or the next one is of a kind. -/
def State.stops (s : State) (kinds : List Token) : Bool :=
  s.tokens.head?.all (kinds.contains ·)

/-- Pass the next token. -/
def State.pass (s : State) : State := { s with tokens := s.tokens.drop 1 }

/-- Whether the next token is that one. -/
def State.sees (s : State) (token : Token) : Bool := s.tokens.head? == some token

/-- Give a name to the node that comes next; its number. -/
def State.define (s : State) (name : String) : Nat × State :=
  let number := s.anchors.length
  (number, { s with anchors := Entries.insert s.anchors name number })

/-- The whole tag of a handle and a body. -/
def State.tag? (s : State) (handle body : String) : Option String :=
  if handle.isEmpty then some body else (Entries.get? s.handles handle).map (· ++ body)

/-- What stands before a node: its anchor and its tag, in either order. -/
def properties? (s : State) : Option (Option Nat × Option String × State) :=
  match s.tokens with
  | .anchor name :: .tag handle body :: rest => do
    let (number, s) := s.define name
    return (some number, some (← s.tag? handle body), { s with tokens := rest })
  | .tag handle body :: .anchor name :: rest => do
    let (number, s) := s.define name
    return (some number, some (← s.tag? handle body), { s with tokens := rest })
  | .anchor name :: rest =>
    let (number, s) := s.define name
    some (some number, none, { s with tokens := rest })
  | .tag handle body :: rest => do
    return (none, some (← s.tag? handle body), { s with tokens := rest })
  | _ => some (none, none, s)

/-- A node with what stands before it. -/
def withProperties (anchor : Option Nat) (tag : Option String) (node : Node) : Node :=
  let node := tag.elim node (tagged · node)
  anchor.elim node (anchored · node)

mutual

/-- Read a node.  Block collections are read only in block context, and block entries without an
indentation of their own only as the value of a mapping. -/
def read? (block bare : Bool) : Nat → State → Option (Node × State)
  | 0, _ => none
  | fuel + 1, s =>
    match s.tokens with
    | .alias name :: rest =>
      (Entries.get? s.anchors name).map fun number => (reference number, { s with tokens := rest })
    | _ => do
      let (anchor, tag, s) ← properties? s
      let (node, s) ← content? block bare (anchor.isSome || tag.isSome) fuel s
      return (withProperties anchor tag node, s)

/-- Read a node without an anchor and a tag; behind one of them it may be left out. -/
def content? (block bare optional : Bool) : Nat → State → Option (Node × State)
  | 0, _ => none
  | fuel + 1, s =>
    match s.tokens with
    | .scalar text plain :: rest => some (scalar text plain, { s with tokens := rest })
    | .flowSequenceStart :: _ => do
      let (items, s) ← flowItems? true fuel s.pass
      return (sequence items, s)
    | .flowMappingStart :: _ => do
      let (entries, s) ← flowEntries? true fuel s.pass
      return (mapping entries, s)
    | tokens =>
      if bare && s.sees .blockEntry then do
        let (items, s) ← bareItems? fuel s
        return (sequence items, s)
      else if block && s.sees .blockSequenceStart then do
        let (items, s) ← blockItems? fuel s.pass
        return (sequence items, s)
      else if block && s.sees .blockMappingStart then do
        let (entries, s) ← blockEntries? fuel s.pass
        return (mapping entries, s)
      else if optional then some (empty, { s with tokens := tokens })
      else none

/-- Read a node unless one of the tokens comes first that show that it is left out. -/
def unless? (stops : List Token) (block bare : Bool) : Nat → State → Option (Node × State)
  | 0, _ => none
  | fuel + 1, s => if s.stops stops then some (empty, s) else read? block bare fuel s

/-- Read the entries of a block sequence and its end. -/
def blockItems? : Nat → State → Option (List Node × State)
  | 0, _ => none
  | fuel + 1, s =>
    if s.sees .blockEntry then do
      let (item, s) ← unless? [.blockEntry, .blockEnd] true false fuel s.pass
      let (items, s) ← blockItems? fuel s
      return (item :: items, s)
    else if s.sees .blockEnd then some ([], s.pass)
    else none

/-- Read block entries up to a token that is none. -/
def bareItems? : Nat → State → Option (List Node × State)
  | 0, _ => none
  | fuel + 1, s =>
    if s.sees .blockEntry then do
      let (item, s) ← unless? [.blockEntry, .key, .value, .blockEnd] true false fuel s.pass
      let (items, s) ← bareItems? fuel s
      return (item :: items, s)
    else some ([], s)

/-- Read the entries of a block mapping and its end. -/
def blockEntries? : Nat → State → Option (List (Node × Node) × State)
  | 0, _ => none
  | fuel + 1, s =>
    if s.sees .key then do
      let (key, s) ← unless? [.key, .value, .blockEnd] true true fuel s.pass
      let (value, s) ←
        if s.sees .value then unless? [.key, .value, .blockEnd] true true fuel s.pass
        else some (empty, s)
      let (entries, s) ← blockEntries? fuel s
      return ((key, value) :: entries, s)
    else if s.sees .blockEnd then some ([], s.pass)
    else none

/-- Read the value of a key in a flow collection, up to one of the tokens that end it. -/
def flowValue? (close : Token) : Nat → State → Option (Node × State)
  | 0, _ => none
  | fuel + 1, s =>
    if s.sees .value then unless? [.flowEntry, close] false false fuel s.pass else some (empty, s)

/-- Read the entries of a flow sequence and its end; a key makes an entry a mapping of one pair. -/
def flowItems? (first : Bool) : Nat → State → Option (List Node × State)
  | 0, _ => none
  | fuel + 1, s =>
    if s.sees .flowSequenceEnd then some ([], s.pass)
    else if !first && !s.sees .flowEntry then none
    else
      let s := if first then s else s.pass
      if s.sees .flowSequenceEnd then some ([], s.pass)
      else if s.sees .key then do
        let s := s.pass
        let (key, s) ←
          if s.stops [.value, .flowEntry, .flowSequenceEnd] then some (empty, s.pass)
          else read? false false fuel s
        let (value, s) ← flowValue? .flowSequenceEnd fuel s
        let (items, s) ← flowItems? false fuel s
        return (mapping [(key, value)] :: items, s)
      else do
        let (item, s) ← read? false false fuel s
        let (items, s) ← flowItems? false fuel s
        return (item :: items, s)

/-- Read the entries of a flow mapping and its end; an entry without a key mark has no value. -/
def flowEntries? (first : Bool) : Nat → State → Option (List (Node × Node) × State)
  | 0, _ => none
  | fuel + 1, s =>
    if s.sees .flowMappingEnd then some ([], s.pass)
    else if !first && !s.sees .flowEntry then none
    else
      let s := if first then s else s.pass
      if s.sees .flowMappingEnd then some ([], s.pass)
      else if s.sees .key then do
        let (key, s) ← unless? [.value, .flowEntry, .flowMappingEnd] false false fuel s.pass
        let (value, s) ← flowValue? .flowMappingEnd fuel s
        let (entries, s) ← flowEntries? false fuel s
        return ((key, value) :: entries, s)
      else do
        let (key, s) ← read? false false fuel s
        let (entries, s) ← flowEntries? false fuel s
        return ((key, empty) :: entries, s)

end

/-- What the handles stand for by the directives at the front of a token list, and what follows them; a
directive is there once, but for different handles. -/
def directives? (versioned : Bool) (handles : Entries String) :
    List Token → Option (Entries String × List Token)
  | .directive directive :: rest =>
    if !directive.isKnown then none
    else match directive with
      | .version _ _ => if versioned then none else directives? true handles rest
      | .handle name start =>
        if Entries.has handles name then none
        else directives? versioned (Entries.insert handles name start) rest
  | tokens => some (handles, tokens)

/-- The node of the only document of a token list; a text without a document is empty.  Behind directives
the start of the document has to be marked. -/
def ofTokens? (tokens : List Token) : Option Node := do
  let fuel := 4 * tokens.length + 4
  let (handles, rest) ← directives? false [] tokens
  let start : State := ⟨rest, [], handles ++ standardHandles⟩
  let (node, s) ← match rest with
    | .documentStart :: _ => unless? [.documentStart, .documentEnd] true false fuel start.pass
    | [] => if tokens.isEmpty then some (empty, start) else none
    | _ => if rest.length = tokens.length then read? true false fuel start else none
  if s.tokens.all (· == .documentEnd) then some node else none

/-! ### Aliases -/

mutual

/-- The node and all nodes in it, in the order in which they start. -/
def all : Node → List Node
  | scalar text plain => [scalar text plain]
  | sequence items => sequence items :: allOfItems items
  | mapping entries => mapping entries :: allOfEntries entries
  | reference number => [reference number]
  | tagged tag node => tagged tag node :: all node
  | anchored number node => anchored number node :: all node

/-- All nodes in the items of a sequence. -/
def allOfItems : List Node → List Node
  | [] => []
  | item :: rest => all item ++ allOfItems rest

/-- All nodes in the entries of a mapping. -/
def allOfEntries : List (Node × Node) → List Node
  | [] => []
  | (key, value) :: rest => all key ++ all value ++ allOfEntries rest

end

/-- The nodes by the numbers of their anchors, the last one first. -/
def anchors (node : Node) : List (Nat × Node) :=
  (node.all.filterMap fun
    | anchored number node => some (number, node)
    | _ => none).reverse

/-- How much of the document a node takes by itself: one place, two where it has an end of its own. -/
def places : Node → Nat
  | scalar _ _ | reference _ => 1
  | sequence _ | mapping _ => 2
  | tagged _ _ | anchored _ _ => 0

/-- How often aliases may be followed, a hundred times for each place in the document. -/
def followLimit (node : Node) : Nat := 100 * node.all.foldl (· + ·.places) 0

/-- The node that a node is or stands for, without its anchor, when aliases may be followed `left` times;
how often they may be after that. -/
def follow? (anchors : List (Nat × Node)) (node : Node) (left : Nat) : Option (Node × Nat) :=
  match node with
  | reference number =>
    if left = 0 then none else (anchors.lookup number).map (·, left - 1)
  | anchored _ node => some (node, left)
  | node => some (node, left)

/-! ### Values -/

/-- The tag of a node, and the node without it. -/
def untagged : Node → Option String × Node
  | tagged tag node => (some tag, node)
  | node => (none, node)

/-- The text of a key, whatever its tag; only scalars are keys. -/
def keyText? (anchors : List (Nat × Node)) (node : Node) : StateT Nat Option String := do
  match (untagged (← follow? anchors node)).2 with
  | scalar text _ => return text
  | _ => failure

/-- The JSON value of a node in which at most `depth` sequences and mappings are nested.  A node with a tag
of the document's own has none. -/
def toValue? (anchors : List (Nat × Node)) : Nat → Node → StateT Nat Option Value
  | depth, node => do
    let (tag, node) := untagged (← follow? anchors node)
    if tag.any isOwnTag then failure
    match node, depth with
    | scalar text plain, _ => scalarValue? tag text plain
    | sequence items, depth + 1 => return .arr (← items.mapM (toValue? anchors depth))
    | mapping entries, depth + 1 => do
      let members ← entries.mapM fun (key, value) => do
        let name ← keyText? anchors key
        return (name, ← toValue? anchors depth value)
      return .obj (Entries.ofList members)
    | _, _ => failure

end Node

/-- The largest number of sequences and mappings that may be nested. -/
def depthLimit : Nat := 128

/-- The JSON value that a YAML text denotes; none when the text is refused. -/
def read? (text : String) : Option Value := do
  let node ← Node.ofTokens? (← Token.ofText? text.toList)
  (node.toValue? node.anchors depthLimit).run' node.followLimit

end ZodRoutes.Yaml
