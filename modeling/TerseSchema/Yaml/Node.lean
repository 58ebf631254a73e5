import TerseSchema.Table
import TerseSchema.Yaml.Scanner

/-!
# Nodes of YAML documents

The tokens of a text are read as a tree of nodes, with anchors and aliases still
in it.

## Main definitions

* `Yaml.Properties`, `Yaml.Node` — the nodes of a document.
* `Yaml.Node.read` — the node at the head of a list of tokens.
* `Yaml.document?` — the only document of a text; none if there is a fault, or a
  second document.

A node without content is an empty plain text.  An anchor has a number: how many
different names were in use before it.
-/

namespace TerseSchema.Yaml

/-- What may stand in front of a node. -/
structure Properties where
  /-- The number of its anchor. -/
  anchor : Option Nat := none
  /-- Its tag, in full. -/
  tag : Option Tag := none
  deriving DecidableEq

/-- A node of a document. -/
inductive Node where
  /-- A reference to the node with an anchor. -/
  | alias (anchor : Nat)
  | text (properties : Properties) (style : Style) (value : String)
  | sequence (properties : Properties) (items : List Node)
  /-- A mapping of keys to values, in the order of the text. -/
  | mapping (properties : Properties) (entries : List (Node × Node))
  deriving Inhabited

namespace Node

/-- A node without content. -/
def empty (p : Properties) : Node := .text p .plain ""

/-- What is being read: the tokens that are left, and the numbers of the anchors
whose names have been read. -/
structure Source where
  /-- The tokens that are left. -/
  tokens : List Token
  /-- The numbers of the anchors, by name. -/
  anchors : List (String × Nat) := []

/-- A reader of nodes; none if there is a fault. -/
abbrev Read := StateT Source Option

/-- The next token. -/
def peek : Read (Option Token) := do return (← get).tokens.head?

/-- Drops the next token. -/
def drop : Read Unit := modify fun s => { s with tokens := s.tokens.drop 1 }

/-- Drops the next token if it is `t`, and says so. -/
def dropIf (t : Token) : Read Bool := do
  if (← peek) = some t then
    drop
    return true
  else return false

/-- Drops the next token, which must be `t`. -/
def expect (t : Token) : Read Unit := do
  unless ← dropIf t do failure

/-- Whether the next token is one of some tokens. -/
def at? (ts : List Token) : Read Bool := do
  match ← peek with
  | some t => return ts.contains t
  | none => return false

/-- Gives the next anchor its number. -/
def anchor (name : String) : Read Nat :=
  modifyGet fun s =>
    (s.anchors.length, { s with anchors := Table.insert s.anchors name s.anchors.length })

/-- The number of the anchor with a name. -/
def anchored (name : String) : Read Nat := do
  match (← get).anchors.lookup name with
  | some n => return n
  | none => failure

/-- Reads the anchor, if one comes next. -/
def anchor? : Read (Option Nat) := do
  match ← peek with
  | some (.anchor name) =>
    drop
    return some (← anchor name)
  | _ => return none

/-- Reads the tag, if one comes next. -/
def tag? (handles : Handles) : Read (Option Tag) := do
  match ← peek with
  | some (.tag handle suffix) =>
    drop
    match fullTag handles handle suffix with
    | some tag => return some tag
    | none => failure
  | _ => return none

/-- Reads what stands in front of a node: an anchor, a tag, or both in any order. -/
def properties (handles : Handles) : Read Properties := do
  match ← anchor? with
  | some n => return ⟨some n, ← tag? handles⟩
  | none =>
    match ← tag? handles with
    | some tag => return ⟨← anchor?, some tag⟩
    | none => return {}

mutual

/-- Reads a node.  Its content may be a block where `block` says so, and items may
stand at the column of the key they belong to where `compact` says so. -/
def node (handles : Handles) : Nat → (block compact : Bool) → Read Node
  | 0, _, _ => failure
  | fuel + 1, block, compact => do
    if let some (.alias name) ← peek then
      drop
      return .alias (← anchored name)
    let p ← properties handles
    match ← peek with
    | some (.text style value) =>
      drop
      return .text p style value
    | some (.opening .square) =>
      drop
      return .sequence p (← flowItems handles fuel true)
    | some (.opening .curly) =>
      drop
      return .mapping p (← flowEntries handles fuel true)
    | some .item =>
      if compact then return .sequence p (← compactItems handles fuel)
      else if p = {} then failure else return .empty p
    | some .blockSequence =>
      if block then
        drop
        return .sequence p (← blockItems handles fuel)
      else if p = {} then failure else return .empty p
    | some .blockMapping =>
      if block then
        drop
        return .mapping p (← blockEntries handles fuel)
      else if p = {} then failure else return .empty p
    | _ => if p = {} then failure else return .empty p

/-- Reads a node, unless one of some tokens comes next and shows that it has no
content. -/
def nodeUnless (handles : Handles) :
    Nat → (block compact : Bool) → List Token → Read Node
  | 0, _, _, _ => failure
  | fuel + 1, block, compact, ends => do
    if ← at? ends then return .empty {} else node handles fuel block compact

/-- Reads the items of a block up to its end. -/
def blockItems (handles : Handles) : Nat → Read (List Node)
  | 0 => failure
  | fuel + 1 => do
    if ← dropIf .item then
      let n ← nodeUnless handles fuel true false [.item, .blockEnd]
      return n :: (← blockItems handles fuel)
    expect .blockEnd
    return []

/-- Reads items that stand at the column of their key. -/
def compactItems (handles : Handles) : Nat → Read (List Node)
  | 0 => failure
  | fuel + 1 => do
    if ← dropIf .item then
      let n ← nodeUnless handles fuel true false [.item, .key, .value, .blockEnd]
      return n :: (← compactItems handles fuel)
    return []

/-- Reads the entries of a block up to its end; a key or a value may be missing. -/
def blockEntries (handles : Handles) : Nat → Read (List (Node × Node))
  | 0 => failure
  | fuel + 1 => do
    let ends : List Token := [.key, .value, .blockEnd]
    if ← dropIf .key then
      let k ← nodeUnless handles fuel true true ends
      let v ← blockValue handles fuel
      return (k, v) :: (← blockEntries handles fuel)
    expect .blockEnd
    return []

/-- Reads the value of an entry of a block. -/
def blockValue (handles : Handles) : Nat → Read Node
  | 0 => failure
  | fuel + 1 => do
    if ← dropIf .value then nodeUnless handles fuel true true [.key, .value, .blockEnd]
    else return .empty {}

/-- Reads the items between square brackets up to the closing one.  An item with a
key is a mapping of one entry. -/
def flowItems (handles : Handles) : Nat → (first : Bool) → Read (List Node)
  | 0, _ => failure
  | fuel + 1, first => do
    if ← dropIf (.closing .square) then return []
    unless first do expect .comma
    if ← dropIf .key then
      let ends : List Token := [.comma, .closing .square]
      let k ← if ← at? (.value :: ends) then do
          -- the sign that shows the key to be missing goes with it
          drop
          pure (.empty {})
        else node handles fuel false false
      let v ← flowValue handles fuel ends
      return .mapping {} [(k, v)] :: (← flowItems handles fuel false)
    if ← dropIf (.closing .square) then return []
    let n ← node handles fuel false false
    return n :: (← flowItems handles fuel false)

/-- Reads the entries between curly brackets up to the closing one.  A key without a
question mark or a colon has no value. -/
def flowEntries (handles : Handles) :
    Nat → (first : Bool) → Read (List (Node × Node))
  | 0, _ => failure
  | fuel + 1, first => do
    if ← dropIf (.closing .curly) then return []
    unless first do expect .comma
    if ← dropIf .key then
      let ends : List Token := [.comma, .closing .curly]
      let k ← nodeUnless handles fuel false false (.value :: ends)
      let v ← flowValue handles fuel ends
      return (k, v) :: (← flowEntries handles fuel false)
    if ← dropIf (.closing .curly) then return []
    let n ← node handles fuel false false
    return (n, .empty {}) :: (← flowEntries handles fuel false)

/-- Reads the value of an entry between brackets. -/
def flowValue (handles : Handles) : Nat → List Token → Read Node
  | 0, _ => failure
  | fuel + 1, ends => do
    if ← dropIf .value then nodeUnless handles fuel false false ends
    else return .empty {}

end

/-- Reads a node, with as many steps as the tokens that are left can take. -/
def read (handles : Handles) : Read Node := do
  node handles (4 * (← get).tokens.length + 4) true false

end Node

/-- The handles that directives give a meaning, in front of `known`, and the tokens
behind the directives.  There is at most one version, 1.1 or 1.2, and no handle has
two meanings. -/
def directives? (known : Handles) (version : Bool) :
    List Token → Option (Handles × List Token)
  | .version major minor :: rest =>
    if version || major ≠ 1 || (minor ≠ 1 && minor ≠ 2) then none
    else directives? known true rest
  | .handle name meaning :: rest =>
    if (known.lookup name).isSome then none
    else directives? ((name, meaning) :: known) version rest
  | tokens => some (known, tokens)

/-- Whether a token begins a document or a directive, or ends a document. -/
def Token.isBoundary : Token → Bool
  | .version _ _ | .handle _ _ | .documentStart | .documentEnd => true
  | _ => false

/-- The only document of a list of tokens; an empty node if there is none.  With
directives, the document has to begin with its marker. -/
def documentOf? (tokens : List Token) : Option Node :=
  match tokens with
  | [] => some (.empty {})
  | first :: _ =>
    (directives? [] false tokens).bind fun (handles, rest) =>
      let explicit := first.isBoundary && first ≠ .documentEnd
      let body : Option (List Token) :=
        if explicit then
          match rest with
          | .documentStart :: rest => some rest
          | _ => none
        else some tokens
      body.bind fun body =>
        let read :=
          if explicit && (body.head?.map Token.isBoundary).getD true then
            some (Node.empty {}, { tokens := body })
          else (Node.read (handles ++ standardHandles)).run { tokens := body }
        read.bind fun (n, left) =>
          if left.tokens.all (· = .documentEnd) then some n else none

/-- The only document of a text. -/
def document? (text : String) : Option Node := (scan text).bind documentOf?

end TerseSchema.Yaml
