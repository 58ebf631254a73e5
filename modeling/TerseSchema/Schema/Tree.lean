import TerseSchema.Schema.Arena

/-!
# Schema trees

The tree of a schema is its arena seen from the root, every reference replaced by
what it refers to.  A shared node is one value in memory wherever it occurs, so
the tree costs no more than the arena.

## Main definitions

* `Tree` — an abstract schema.
* `Arena.tree` — the tree seen from the root of an arena.
* `FlatSchema.elaborate` — the same tree read off a flat schema directly,
  following every reference anew.
* `Tree.induct` — induction with a hypothesis for every part, field and wildcard.
-/

namespace TerseSchema

/-- An abstract schema. -/
inductive Tree where
  /-- A scalar of a type, with a default. -/
  | scalar (optional : Bool) (type : String) (declared : Option Default)
  /-- An array whose parts apply cyclically to its items. -/
  | array (optional : Bool) (parts : List Tree)
  /-- An object: declared fields, and the schema of every other key. -/
  | object (optional : Bool) (fields : List (String × Tree)) (wildcard : Option Tree)

namespace Tree

/-- The schema of any value that is there. -/
def any : Tree := .scalar false "" none

instance : Inhabited Tree := ⟨any⟩

/-- Whether a schema admits that nothing is there. -/
def optional : Tree → Bool
  | .scalar optional _ _ => optional
  | .array optional _ => optional
  | .object optional _ _ => optional

/-- Induction over schemas: a group may assume the statement of its parts. -/
theorem induct {motive : Tree → Prop}
    (scalar : ∀ optional type declared, motive (.scalar optional type declared))
    (array : ∀ optional parts, (∀ t ∈ parts, motive t) → motive (.array optional parts))
    (object : ∀ optional fields wildcard, (∀ f ∈ fields, motive f.2) →
      (∀ t ∈ wildcard, motive t) → motive (.object optional fields wildcard)) :
    ∀ t, motive t :=
  @Tree.rec motive (fun parts => ∀ t ∈ parts, motive t)
    (fun fields => ∀ f ∈ fields, motive f.2) (fun wildcard => ∀ t ∈ wildcard, motive t)
    (fun f => motive f.2)
    scalar array object
    (by simp) (fun _ _ ht hts => List.forall_mem_cons.mpr ⟨ht, hts⟩)
    (by simp) (fun _ _ hf hfs => List.forall_mem_cons.mpr ⟨hf, hfs⟩)
    (by simp) (fun _ ht => by simpa using ht)
    (fun _ _ ht => ht)

end Tree

/-! ### From the arena -/

/-- The tree of a node, given those of the nodes before it. -/
def Node.unfold (trees : List Tree) : Node → Tree
  | .scalar optional type declared => .scalar optional type declared
  | .array optional parts => .array optional (parts.map (trees.getD · .any))
  | .object optional fields wildcard =>
    .object optional (fields.map fun (name, id) => (name, trees.getD id .any))
      (wildcard.map (trees.getD · .any))

/-- The trees of all nodes, in the order of the arena. -/
def Arena.trees (a : Arena) : List Tree :=
  a.nodes.foldl (fun trees node => trees ++ [node.unfold trees]) []

/-- The tree seen from the root. -/
def Arena.tree (a : Arena) : Tree := a.trees.getD a.root .any

/-! ### From the flat schema -/

/-- The tree of a group, once its terms are elaborated. -/
def groupTree (term : Term → Except SchemaError Tree) (optional : Bool) :
    Group → Except SchemaError Tree
  | .array parts => do
    let parts ← parts.mapM term
    return .array optional parts
  | .object entries => do
    let entries ← entries.mapM fun (name, t) => do return (name, ← term t)
    return .object optional (declaredFields entries) (wildcard? entries)

/-- The tree of a term, given those of the entries it may refer to. -/
def termTree (entry : Nat → Bool → Except SchemaError Tree) (t : Term) :
    Except SchemaError Tree :=
  match t.content with
  | .reference index => entry index t.optional
  | .scalar type declared => .ok (.scalar t.optional type declared)

/-- The tree of an entry.  Only the first `bound` entries may be referred to, and
an entry only to those below it. -/
def entryTree (s : FlatSchema) (bound index : Nat) (optional : Bool) : Except SchemaError Tree :=
  match bound with
  | 0 => .error (.danglingReference index 0)
  | below + 1 =>
    if index < below then entryTree s below index optional
    else if index ≠ below then .error (.danglingReference index (below + 1))
    else groupTree (termTree (entryTree s below)) optional (s.group index)

/-- The tree of a flat schema, following every reference anew. -/
def FlatSchema.elaborate (s : FlatSchema) : Except SchemaError Tree :=
  termTree (entryTree s s.lookups.length) s.root

end TerseSchema
