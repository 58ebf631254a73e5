import TerseSchema.Yaml.Node

/-!
# What YAML documents hold

The content of a document is its tree of nodes with every alias replaced by what it
refers to.  Two limits keep it finite: the depth of collections, and the number of
aliases that are followed.

## Main definitions

* `Yaml.Content` — the content of a document.
* `Yaml.Node.expand` — follows the aliases of a node.
* `Yaml.read` — the content of a text; none if there is a fault.
-/

namespace TerseSchema.Yaml

/-- The content of a document. -/
inductive Content where
  | text (tag : Option Tag) (style : Style) (value : String)
  | sequence (tag : Option Tag) (items : List Content)
  /-- A mapping of keys to values, in the order of the text. -/
  | mapping (tag : Option Tag) (entries : List (Content × Content))
  deriving Inhabited

namespace Node

/-- The node with its anchor, if it has one. -/
def named (n : Node) : List (Nat × Node) :=
  match n with
  | .alias _ => []
  | .text p _ _ | .sequence p _ | .mapping p _ => (p.anchor.map fun a => (a, n)).toList

mutual

/-- The nodes with anchors within a node, in the order of the text. -/
def anchors : Node → List (Nat × Node)
  | .alias a => named (.alias a)
  | .text p style value => named (.text p style value)
  | .sequence p items => named (.sequence p items) ++ anchorsItems items
  | .mapping p entries => named (.mapping p entries) ++ anchorsEntries entries

/-- The nodes with anchors within items. -/
def anchorsItems : List Node → List (Nat × Node)
  | [] => []
  | n :: items => anchors n ++ anchorsItems items

/-- The nodes with anchors within entries. -/
def anchorsEntries : List (Node × Node) → List (Nat × Node)
  | [] => []
  | (k, v) :: entries => anchors k ++ anchors v ++ anchorsEntries entries

end

mutual

/-- The size of a node: a collection counts for its beginning and for its end. -/
def size : Node → Nat
  | .alias _ | .text _ _ _ => 1
  | .sequence _ items => 2 + sizeItems items
  | .mapping _ entries => 2 + sizeEntries entries

/-- The size of items. -/
def sizeItems : List Node → Nat
  | [] => 0
  | n :: items => size n + sizeItems items

/-- The size of entries. -/
def sizeEntries : List (Node × Node) → Nat
  | [] => 0
  | (k, v) :: entries => size k + size v + sizeEntries entries

end

/-- What an expansion needs to know of a document. -/
structure Scope where
  /-- The nodes with anchors; the last one with a number counts. -/
  anchors : List (Nat × Node)
  /-- The most aliases that may be followed. -/
  limit : Nat

/-- Follows a node that is an alias; the state counts how many were followed. -/
def follow (scope : Scope) : Node → StateT Nat Option Node
  | .alias a => do
    modify (· + 1)
    if scope.limit < (← get) then failure
    match scope.anchors.reverse.lookup a with
    | some n => return n
    | none => failure
  | n => return n

/-- The content of a node in which at most `depth` collections hold one another. -/
def expand (scope : Scope) : Nat → Node → StateT Nat Option Content
  | 0, n => do
    match ← follow scope n with
    | .text p style value => return .text p.tag style value
    | _ => failure
  | depth + 1, n => do
    match ← follow scope n with
    | .alias _ => failure
    | .text p style value => return .text p.tag style value
    | .sequence p items => return .sequence p.tag (← items.mapM (expand scope depth))
    | .mapping p entries =>
      return .mapping p.tag (← entries.mapM fun (k, v) => do
        return (← expand scope depth k, ← expand scope depth v))

end Node

/-- The most collections that may hold one another. -/
def maxDepth : Nat := 128

/-- How many aliases may be followed for each node of a document. -/
def aliasFactor : Nat := 100

/-- The content of the only document of a text; an empty text if there is none. -/
def read (text : String) : Option Content :=
  (document? text).bind fun n =>
    ((n.expand ⟨n.anchors, aliasFactor * n.size⟩ maxDepth).run 0).map Prod.fst

end TerseSchema.Yaml
