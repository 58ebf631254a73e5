import TerseSchema.Schema.Term

/-!
# Compiled schemas

Compiling places the terms of a flat schema as nodes in an arena, children before
their parents.  An entry of the table may refer only to entries below it.  All
references to one entry with the same optional mark share one node, so the arena
grows with the table and not with the number of paths through it.

## Main definitions

* `Node`, `Arena` — nodes refer to their children by their place in the arena.
* `Build`, `placeTerm`, `placeEntry` — placing a term and an entry.
* `compile` — the arena of a flat schema.
* `Arena.types` — the type names of an arena, in order.
-/

namespace TerseSchema

/-- One node of a compiled schema. -/
inductive Node where
  /-- A scalar of a type, with a default. -/
  | scalar (optional : Bool) (type : String) (declared : Option Default)
  /-- An array whose parts apply cyclically to its items. -/
  | array (optional : Bool) (parts : List Nat)
  /-- An object: declared fields, and the node for every other key. -/
  | object (optional : Bool) (fields : List (String × Nat)) (wildcard : Option Nat)
  deriving DecidableEq

/-- A compiled schema. -/
structure Arena where
  /-- The nodes, children before their parents. -/
  nodes : List Node
  /-- The place of the root. -/
  root : Nat
  deriving DecidableEq

/-- An arena under construction. -/
structure Building where
  /-- The nodes placed so far. -/
  nodes : List Node := []
  /-- Where the entries are placed, by number and optional mark. -/
  placed : List ((Nat × Bool) × Nat) := []

/-- A step of construction, which may meet a reference out of bounds. -/
abbrev Build := StateT Building (Except SchemaError)

/-- Places a node. -/
def placeNode (node : Node) : Build Nat := do
  let b ← get
  set { b with nodes := b.nodes ++ [node] }
  return b.nodes.length

/-- The node of a group, once its terms are placed. -/
def groupNode (term : Term → Build Nat) (optional : Bool) : Group → Build Node
  | .array parts => do
    let parts ← parts.mapM term
    return .array optional parts
  | .object entries => do
    let entries ← entries.mapM fun (name, t) => do return (name, ← term t)
    return .object optional (declaredFields entries) (wildcard? entries)

/-- Places a term, given how to place the entries it may refer to. -/
def placeTerm (entry : Nat → Bool → Build Nat) (t : Term) : Build Nat :=
  match t.content with
  | .reference index => entry index t.optional
  | .scalar type declared => placeNode (.scalar t.optional type declared)

/-- Places an entry once for each optional mark.  Only the first `bound` entries
may be referred to, and an entry only to those below it. -/
def placeEntry (s : FlatSchema) (bound index : Nat) (optional : Bool) : Build Nat :=
  match bound with
  | 0 => throw (.danglingReference index 0)
  | below + 1 =>
    if index < below then placeEntry s below index optional
    else if index ≠ below then throw (.danglingReference index (below + 1))
    else do
      match (← get).placed.lookup (index, optional) with
      | some id => return id
      | none =>
        let node ← groupNode (placeTerm (placeEntry s below)) optional (s.group index)
        let id ← placeNode node
        modify fun b => { b with placed := ((index, optional), id) :: b.placed }
        return id

/-- The arena of a flat schema. -/
def compile (s : FlatSchema) : Except SchemaError Arena := do
  let (root, b) ← (placeTerm (placeEntry s s.lookups.length) s.root).run {}
  return ⟨b.nodes, root⟩

/-- The type name of a scalar. -/
def Node.type? : Node → Option String
  | .scalar _ type _ => some type
  | _ => none

/-- The type names of all scalars, in the order of the arena. -/
def Arena.types (a : Arena) : List String := a.nodes.filterMap Node.type?

end TerseSchema
