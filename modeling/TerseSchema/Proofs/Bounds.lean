import TerseSchema.Description
import TerseSchema.Proofs.Nodes

/-!
# Nothing is read out of range

A list that is read at a place that it does not have gives a default, behind which a
fault of construction could hide.  No such place is ever asked for.  Construction reads
the table of a flat schema at the numbers that it has checked, and a walk reads an arena
at the numbers that its nodes hold: reading that fails instead gives the same answers.

## Main definitions

* `Node.children`, `Arena.WellFormed` — what may be relied on in an arena.
* `Arena.walk?` — a walk by numbers, which fails out of range.
* `compileOr` — compiling, where the table is read so that it fails out of range.

## Main results

* `wellFormed_of_compile` — compiled arenas are well formed.
* `walk?_eq` — in a well-formed arena no walk fails.
* `compileOr_eq` — compiling never fails to read the table.
* `compile_in_range` — **nothing is read out of range.**
-/

namespace TerseSchema

/-! ### Well-formed arenas -/

/-- The numbers that a node holds. -/
def Node.children : Node → List Nat
  | .scalar _ _ _ => []
  | .array _ parts => parts
  | .object _ fields wildcard => fields.map Prod.snd ++ wildcard.toList

/-- The root is the last node, children stand before their parents, every array has a
part, and the fields of an object have distinct names other than `*`. -/
structure Arena.WellFormed (a : Arena) : Prop where
  root : a.root + 1 = a.nodes.length
  children : ∀ (id : Nat) (node : Node), a.nodes[id]? = some node →
    ∀ child ∈ node.children, child < id
  parts : ∀ optional parts, .array optional parts ∈ a.nodes → parts ≠ []
  names : ∀ optional fields wildcard, .object optional fields wildcard ∈ a.nodes →
    (Table.names fields).Nodup ∧ wildcardName ∉ Table.names fields

theorem Node.Fits.children_lt {p : Bool → String → Option Default → Prop} {id : Nat} {node : Node}
    (h : node.Fits p id) : ∀ child ∈ node.children, child < id := by
  intro child hchild
  cases h with
  | scalar _ => cases hchild
  | array _ hparts => exact hparts child hchild
  | object _ _ hfields hwildcard =>
    rcases List.mem_append.mp hchild with hchild | hchild
    · obtain ⟨f, hf, rfl⟩ := List.mem_map.mp hchild
      exact hfields f hf
    · exact hwildcard child (Option.mem_toList.mp hchild)

theorem wellFormed_of_compile {s : FlatSchema} {a : Arena} (h : compile s = .ok a) :
    a.WellFormed := by
  have hmeets : MeetsScalars (fun _ _ _ => True) s s.lookups.length s.root :=
    meetsScalars_of_forall (fun _ _ _ => trivial) s _ _
  have hfits : ∀ (id : Nat) (node : Node), a.nodes[id]? = some node →
      node.Fits (fun _ _ _ => True) id := fun id node hnode => fits_of_compile h hmeets hnode
  refine ⟨root_of_compile h, fun id node hnode => (hfits id node hnode).children_lt, ?_, ?_⟩
  · intro optional parts hmem
    obtain ⟨id, hnode⟩ := List.mem_iff_getElem?.mp hmem
    cases hfits id _ hnode with
    | array hparts _ => exact hparts
  · intro optional fields wildcard hmem
    obtain ⟨id, hnode⟩ := List.mem_iff_getElem?.mp hmem
    cases hfits id _ hnode with
    | object hnames hwild _ _ => exact ⟨hnames, hwild⟩

/-! ### Walking by numbers -/

section
variable {σ γ : Type}

/-- A walk over an arena that reads every child by its number.  It fails where a
number is not that of an earlier node, and where an array has no part to turn to,
whether or not a place would call for that child. -/
def Arena.walk? (a : Arena) (w : Walk σ γ) (id : Nat) : Option (σ → γ) :=
  match a.nodes[id]? with
  | none => none
  | some (.scalar optional type declared) => some (w.scalar optional type declared)
  | some (.array optional parts) =>
    if parts = [] then none
    else
      (parts.mapM fun child => if child < id then a.walk? w child else none).map
        (w.array optional)
  | some (.object optional fields wildcard) =>
    (fields.mapM fun f =>
        (if f.2 < id then a.walk? w f.2 else none).map (f.1, ·)).bind fun fields =>
      (wildcard.mapM fun child => if child < id then a.walk? w child else none).map
        (w.object optional fields)
termination_by id

theorem mapM_eq_some_map {α β : Type} {f : α → Option β} {g : α → β} {xs : List α}
    (h : ∀ x ∈ xs, f x = some (g x)) : xs.mapM f = some (xs.map g) := by
  induction xs with
  | nil => rfl
  | cons x xs ih =>
    rw [List.mapM_cons, h x List.mem_cons_self, ih fun y hy => h y (List.mem_cons_of_mem _ hy)]
    rfl

/-- A node looks at the trees of its children only. -/
theorem Node.unfold_congr {trees trees' : List Tree} {node : Node}
    (h : ∀ child ∈ node.children, trees.getD child .any = trees'.getD child .any) :
    node.unfold trees = node.unfold trees' := by
  cases node with
  | scalar optional type declared => rfl
  | array optional parts => exact congrArg _ (List.map_congr_left h)
  | object optional fields wildcard =>
    have hfields : ∀ f ∈ fields, (f.1, trees.getD f.2 .any) = (f.1, trees'.getD f.2 .any) := by
      intro f hf
      rw [h f.2 (List.mem_append_left _ (List.mem_map_of_mem hf))]
    have hwildcard : ∀ child ∈ wildcard, trees.getD child .any = trees'.getD child .any := by
      intro child hchild
      exact h child (List.mem_append_right _ (Option.mem_toList.mpr hchild))
    rw [Node.unfold, Node.unfold, List.map_congr_left hfields, Option.map_congr hwildcard]

/-- Nodes placed later leave the tree of a node alone, as its children stand before
it. -/
theorem getD_treesOf {nodes : List Node} {id : Nat} {node : Node} (hnode : nodes[id]? = some node)
    (hchildren : ∀ child ∈ node.children, child < id) :
    (treesOf nodes).getD id .any = node.unfold (treesOf nodes) := by
  obtain ⟨hid, hget⟩ := List.getElem?_eq_some_iff.mp hnode
  have hlength : (nodes.take id).length = id := by
    rw [List.length_take]
    omega
  have hprefix : nodes.take id ++ [node] <+: nodes := by
    rw [← hget, List.take_append_getElem]
    exact List.take_prefix _ _
  have hdenotes := (denotes_concat (nodes.take id) node).mono hprefix
  rw [hlength] at hdenotes
  rw [hdenotes.getD]
  refine Node.unfold_congr fun child hchild => ?_
  -- a child is denoted by the nodes before its parent already
  have hin : child < (treesOf (nodes.take id)).length := by
    rw [length_treesOf, hlength]
    exact hchildren child hchild
  have hdenotes : Denotes (nodes.take id) child (treesOf (nodes.take id))[child] :=
    List.getElem?_eq_getElem hin
  rw [hdenotes.getD, (hdenotes.mono (List.take_prefix _ _)).getD]

/-- A walk does not fail at a node if it does not fail at the children. -/
theorem walk?_of_children {a : Arena} {w : Walk σ γ} {id : Nat} {node : Node}
    (hnode : a.nodes[id]? = some node)
    (hparts : ∀ optional parts, node = .array optional parts → parts ≠ []) {trees : List Tree}
    (hchild : ∀ child ∈ node.children, (if child < id then a.walk? w child else none) =
      some (w.run (trees.getD child .any))) :
    a.walk? w id = some (w.run (node.unfold trees)) := by
  rw [Arena.walk?, hnode]
  cases node with
  | scalar optional type declared =>
    refine congrArg some (funext fun place => ?_)
    rw [Node.unfold, Walk.run_scalar]
  | array optional parts =>
    have hmapM : (parts.mapM fun child => if child < id then a.walk? w child else none) =
        some (parts.map fun child => w.run (trees.getD child .any)) := mapM_eq_some_map hchild
    simp only [if_neg (hparts optional parts rfl)]
    rw [hmapM]
    refine congrArg some (funext fun place => ?_)
    rw [Node.unfold, Walk.run_array, List.map_map]
    rfl
  | object optional fields wildcard =>
    have hfields : (fields.mapM fun f =>
          (if f.2 < id then a.walk? w f.2 else none).map (f.1, ·)) =
        some (fields.map fun f => (f.1, w.run (trees.getD f.2 .any))) := by
      refine mapM_eq_some_map fun f hf => ?_
      rw [hchild f.2 (List.mem_append_left _ (List.mem_map_of_mem hf)), Option.map_some]
    have hwildcard : (wildcard.mapM fun child => if child < id then a.walk? w child else none) =
        some (wildcard.map fun child => w.run (trees.getD child .any)) := by
      cases wildcard with
      | none => rfl
      | some child =>
        have hmem : child ∈ (Node.object optional fields (some child)).children :=
          List.mem_append_right _ (List.mem_singleton_self child)
        rw [Option.mapM_some, hchild child hmem]
        rfl
    simp only [hfields, Option.bind_some, hwildcard, Option.map_some]
    refine congrArg some (funext fun place => ?_)
    rw [Node.unfold, Walk.run_object, List.map_map, Option.map_map]
    rfl

/-- **In a well-formed arena no walk fails**: it does at a node what it does at the
tree of the node. -/
theorem walk?_eq {a : Arena} (ha : a.WellFormed) (w : Walk σ γ) : ∀ id < a.nodes.length,
    a.walk? w id = some (w.run (a.trees.getD id .any)) := by
  intro id
  induction id using Nat.strongRecOn with
  | _ id ih =>
    intro hid
    have hnode : a.nodes[id]? = some a.nodes[id] := List.getElem?_eq_getElem hid
    have hchildren := ha.children id _ hnode
    rw [Arena.trees_eq, getD_treesOf hnode hchildren]
    refine walk?_of_children hnode ?_ fun child hchild => ?_
    · intro optional parts heq
      exact ha.parts optional parts (heq ▸ List.getElem_mem hid)
    · have hlt := hchildren child hchild
      rw [if_pos hlt, ih child hlt (Nat.lt_trans hlt hid), Arena.trees_eq]

end

/-! ### Construction reads its tables in range -/

section
variable {s : FlatSchema} {fault : SchemaError}

/-- The group recorded under a number, or a fault of its own where there is none. -/
def FlatSchema.groupOr (s : FlatSchema) (fault : SchemaError) (index : Nat) : Build Group :=
  match s.lookups[index]? with
  | some body => return Group.parse s.literals body
  | none => throw fault

/-- Places an entry like `placeEntry`, but reads the table by `groupOr`. -/
def placeEntryOr (s : FlatSchema) (fault : SchemaError) (bound index : Nat) (optional : Bool) :
    Build Nat :=
  match bound with
  | 0 => throw (.danglingReference index 0)
  | below + 1 =>
    if index < below then placeEntryOr s fault below index optional
    else if index ≠ below then throw (.danglingReference index (below + 1))
    else do
      match (← get).placed.lookup (index, optional) with
      | some id => return id
      | none =>
        let group ← s.groupOr fault index
        let node ← groupNode (placeTerm (placeEntryOr s fault below)) optional group
        let id ← placeNode node
        modify fun b => { b with placed := ((index, optional), id) :: b.placed }
        return id

/-- Compiles like `compile`, but with a fault of its own where the table is read out
of range. -/
def compileOr (s : FlatSchema) (fault : SchemaError) : Except SchemaError Arena := do
  let (root, b) ← (placeTerm (placeEntryOr s fault s.lookups.length) s.root).run {}
  return ⟨b.nodes, root⟩

theorem groupOr_eq {index : Nat} (h : index < s.lookups.length) :
    s.groupOr fault index = pure (s.group index) := by
  have hbody : s.lookups[index]? = some (s.lookups.getD index []) := by
    rw [List.getD_eq_getElem?_getD, List.getElem?_eq_getElem h, Option.getD_some]
  rw [FlatSchema.groupOr, hbody]
  rfl

/-- The bound never exceeds the table, so an entry within the bound is there. -/
theorem placeEntryOr_eq (s : FlatSchema) (fault : SchemaError) (bound : Nat)
    (hbound : bound ≤ s.lookups.length) : placeEntryOr s fault bound = placeEntry s bound := by
  induction bound with
  | zero => rfl
  | succ below ih =>
    have hbelow := ih (Nat.le_of_succ_le hbound)
    funext index optional
    rw [placeEntryOr, placeEntry, hbelow]
    rcases Nat.lt_trichotomy index below with hlt | rfl | hgt
    · rw [if_pos hlt, if_pos hlt]
    · rw [groupOr_eq hbound]
      rfl
    · have hlt : ¬ index < below := Nat.not_lt_of_gt hgt
      have hne : index ≠ below := Nat.ne_of_gt hgt
      rw [if_neg hlt, if_neg hlt, if_pos hne, if_pos hne]

/-- **Compiling never reads the table out of range**, so that it does not matter what
would happen there. -/
theorem compileOr_eq (s : FlatSchema) (fault : SchemaError) : compileOr s fault = compile s := by
  rw [compileOr, compile, placeEntryOr_eq s fault s.lookups.length (Nat.le_refl _)]

end

/-! ### The whole -/

/-- What a default reads from the table of literals is in range. -/
theorem parseDefault_placeholder (literals : List (List Char)) (digits : List Char) :
    Term.parseDefault literals ('$' :: digits) =
      match Reference.parse? digits with
      | some i =>
        if h : i < literals.length then some (.literal (String.ofList literals[i]))
        else some (.bare (String.ofList ('$' :: digits)))
      | none => some (.bare (String.ofList ('$' :: digits))) := by
  rw [Term.parseDefault]
  cases Reference.parse? digits with
  | none => rfl
  | some i =>
    by_cases h : i < literals.length
    · simp [h]
    · simp [h]

/-- A pattern with a part has one for every item, whatever the parts are read as. -/
theorem nth_map_eq_some {α β : Type} {parts : List α} (h : parts ≠ []) (f : α → β) (i : Nat) :
    ∃ hlt : i % parts.length < parts.length,
      nth (parts.map f) i = some (f parts[i % parts.length]) := by
  have hlt : i % parts.length < parts.length := Nat.mod_lt i (List.length_pos_iff.mpr h)
  refine ⟨hlt, ?_⟩
  rw [nth, List.length_map, List.getElem?_map, List.getElem?_eq_getElem hlt, Option.map_some]

/-- **Nothing is read out of range.**  The arena of a flat schema, whatever its texts
are, is well formed, its arrays have a part for every item, and a walk over it finds
every node that it asks for.  Construction finds every entry that it reads, and reads
the literals that are there. -/
theorem compile_in_range (s : FlatSchema) :
    (∀ a, compile s = .ok a → a.WellFormed ∧
      (∀ optional parts, .array optional parts ∈ a.nodes → ∀ {β : Type} (f : Nat → β) (i : Nat),
        ∃ hlt : i % parts.length < parts.length,
          nth (parts.map f) i = some (f parts[i % parts.length])) ∧
      ∀ {σ γ : Type} (w : Walk σ γ), a.walk? w a.root = some (w.run a.tree)) ∧
    (∀ fault, compileOr s fault = compile s) ∧
    ∀ digits, Term.parseDefault s.literals ('$' :: digits) =
      match Reference.parse? digits with
      | some i =>
        if h : i < s.literals.length then some (.literal (String.ofList s.literals[i]))
        else some (.bare (String.ofList ('$' :: digits)))
      | none => some (.bare (String.ofList ('$' :: digits))) := by
  refine ⟨fun a h => ?_, compileOr_eq s, parseDefault_placeholder s.literals⟩
  have hwf := wellFormed_of_compile h
  refine ⟨hwf, fun optional parts hmem => nth_map_eq_some (hwf.parts optional parts hmem), ?_⟩
  intro σ γ w
  have hroot : a.root < a.nodes.length := by
    have hlast := hwf.root
    omega
  exact walk?_eq hwf w a.root hroot

/-- A table written by hand, with an empty body, a body of one character of two bytes,
references of both marks to one entry, and a placeholder without a literal. -/
def crookedTable : FlatSchema :=
  ⟨['?', '2'], [[], ['é'], ['[', '0', ',', '?', '1', ',', '0', ',', 's', ':', '$', '7', ']']], []⟩

theorem compile_in_range_crookedTable : ∃ a, compile crookedTable = .ok a ∧ a.WellFormed ∧
    a.walk? describing a.root = some (describing.run a.tree) := by
  have h : compile crookedTable = .ok ⟨[.object false [] none, .object true [] none,
      .scalar false "s" (some (.bare "$7")), .array true [0, 1, 0, 2]], 3⟩ := by
    decide +kernel
  obtain ⟨hwf, -, hwalk⟩ := (compile_in_range crookedTable).1 _ h
  exact ⟨_, h, hwf, hwalk describing⟩

end TerseSchema
