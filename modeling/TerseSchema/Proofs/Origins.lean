import TerseSchema.Proofs.Construction

/-!
# The entries that nodes come from

Construction remembers where it has placed an entry, for each of its marks.  Nothing that is
remembered is forgotten, and no node is remembered for two entries.  At the end the memory
therefore tells of every entry that was placed where its group stands, and the nodes inside
that group are those of its terms.

## Main definitions

* `Building.Stands`, `Building.Represents` — the node of a term, and the node of a group.
* `Building.BuiltFrom` — the entry that a node comes from.
* `Building.Extends` — a later construction.
* `Building.Faithful` — what is remembered of an entry represents its group.

## Main results

* `Building.Stands.builtFrom_iff` — a term refers to the entry that its node comes from.
* `survey_stands` — **a term is placed at a node that stands for it.**
* `exists_faithful` — what construction remembers at its end.
-/

namespace TerseSchema

variable {s : FlatSchema}

/-! ### What nodes stand for -/

/-- Whether a node is led by `?`. -/
def Node.optional : Node → Bool
  | .scalar optional _ _ => optional
  | .array optional _ => optional
  | .object optional _ _ => optional

namespace Building

/-- The node at `id` is that of a term: its scalar, or what is remembered of the entry that it
refers to. -/
def Stands (b : Building) (t : Term) (id : Nat) : Prop :=
  match t.content with
  | .scalar type declared => b.nodes[id]? = some (.scalar t.optional type declared)
  | .reference index => b.placed.lookup (index, t.optional) = some id

/-- A node is that of a group, by the nodes of its terms. -/
def Represents (b : Building) (optional : Bool) (g : Group) (node : Node) : Prop :=
  g.HasNode b.Stands optional node

/-- The node at `id` comes from an entry, with one mark or the other. -/
def BuiltFrom (b : Building) (index id : Nat) : Prop :=
  ∃ optional, b.placed.lookup (index, optional) = some id

/-- A later construction has the nodes and the memory of an earlier one. -/
structure Extends (b b' : Building) : Prop where
  nodes : b.nodes <+: b'.nodes
  placed : ∀ key id, b.placed.lookup key = some id → b'.placed.lookup key = some id

/-- What is remembered of an entry represents its group, and no node does so for two
entries. -/
structure Faithful (s : FlatSchema) (b : Building) : Prop where
  represents : ∀ index optional id, b.placed.lookup (index, optional) = some id →
    ∃ node, b.nodes[id]? = some node ∧ b.Represents optional (s.group index) node
  unique : ∀ key key' id, b.placed.lookup key = some id → b.placed.lookup key' = some id →
    key = key'

variable {b b' b'' : Building} {t : Term} {id : Nat} {node : Node}

theorem Extends.refl (b : Building) : b.Extends b := ⟨List.prefix_rfl, fun _ _ h => h⟩

theorem Extends.trans (h : b.Extends b') (h' : b'.Extends b'') : b.Extends b'' :=
  ⟨h.nodes.trans h'.nodes, fun key id hl => h'.placed key id (h.placed key id hl)⟩

theorem Extends.getElem? (h : b.Extends b') (hnode : b.nodes[id]? = some node) :
    b'.nodes[id]? = some node := by
  obtain ⟨later, hlater⟩ := h.nodes
  rw [← hlater, List.getElem?_append_left (List.getElem?_eq_some_iff.mp hnode).1]
  exact hnode

theorem Stands.mono (h : b.Extends b') (ht : b.Stands t id) : b'.Stands t id := by
  unfold Stands at ht ⊢
  split
  · next hcontent =>
    rw [hcontent] at ht
    exact h.getElem? ht
  · next hcontent =>
    rw [hcontent] at ht
    exact h.placed _ _ ht

theorem Represents.mono (h : b.Extends b') {optional : Bool} {g : Group}
    (hg : b.Represents optional g node) : b'.Represents optional g node :=
  Group.HasNode.imp (fun _ _ ht => ht.mono h) hg

/-- The node of a group is no scalar, and has the mark. -/
theorem Represents.isGroup {optional : Bool} {g : Group} (h : b.Represents optional g node) :
    node.isGroup = true ∧ node.optional = optional := by
  refine ⟨Group.HasNode.isGroup h, ?_⟩
  cases g with
  | array parts =>
    obtain ⟨ids, rfl, -⟩ := h
    rfl
  | object entries =>
    obtain ⟨placed, rfl, -⟩ := h
    rfl

theorem faithful_empty (s : FlatSchema) : Building.Faithful s {} := ⟨nofun, nofun⟩

/-- What is remembered is a node. -/
theorem Faithful.lt (hb : b.Faithful s) {key : Nat × Bool} (h : b.placed.lookup key = some id) :
    id < b.nodes.length := by
  obtain ⟨node, hnode, -⟩ := hb.represents key.1 key.2 id h
  exact (List.getElem?_eq_some_iff.mp hnode).1

/-- The node of a term has the mark of the term, and is a group if the term is a reference. -/
theorem Stands.exists_node (ht : b.Stands t id) (hb : b.Faithful s) :
    ∃ node, b.nodes[id]? = some node ∧ node.optional = t.optional ∧
      (node.isGroup = true ↔ ∃ index, t.content = .reference index) := by
  obtain ⟨optional, index | ⟨type, declared⟩⟩ := t
  · obtain ⟨node, hnode, hrepresents⟩ := hb.represents index optional id ht
    obtain ⟨hgroup, hoptional⟩ := hrepresents.isGroup
    exact ⟨node, hnode, hoptional, iff_of_true hgroup ⟨index, rfl⟩⟩
  · exact ⟨_, ht, rfl, iff_of_false Bool.false_ne_true nofun⟩

/-- **A term refers to the entry that its node comes from.** -/
theorem Stands.builtFrom_iff (ht : b.Stands t id) (hb : b.Faithful s) {index : Nat} :
    b.BuiltFrom index id ↔ t.content = .reference index := by
  obtain ⟨optional, lower | ⟨type, declared⟩⟩ := t
  · constructor
    · rintro ⟨mark, hl⟩
      obtain ⟨rfl, -⟩ := Prod.mk.inj (hb.unique _ _ _ hl ht)
      rfl
    · intro hcontent
      obtain rfl := Content.reference.inj hcontent
      exact ⟨optional, ht⟩
  · refine iff_of_false ?_ nofun
    rintro ⟨mark, hl⟩
    -- a node that comes from an entry is no scalar
    obtain ⟨node, hnode, hrepresents⟩ := hb.represents index mark id hl
    obtain rfl := Option.some.inj (hnode.symm.trans ht)
    exact Bool.false_ne_true hrepresents.isGroup.1

/-! ### Steps of construction -/

theorem extends_push (b : Building) (node : Node) : b.Extends (b.push node) :=
  ⟨List.prefix_append _ _, fun _ _ h => h⟩

theorem Faithful.push (hb : b.Faithful s) (node : Node) : (b.push node).Faithful s := by
  refine ⟨fun index optional id hl => ?_, hb.unique⟩
  obtain ⟨other, hother, hrepresents⟩ := hb.represents index optional id hl
  exact ⟨other, (b.extends_push node).getElem? hother, hrepresents.mono (b.extends_push node)⟩

section
variable {index : Nat} {optional : Bool}

theorem lookup_enter (b : Building) (key key' : Nat × Bool) (node : Node) :
    (b.enter key node).placed.lookup key' =
      if key' = key then some b.nodes.length else b.placed.lookup key' := by
  rw [enter, List.lookup_cons]
  by_cases h : key' = key
  · rw [if_pos h, beq_iff_eq.mpr h]
  · rw [if_neg h, beq_eq_false_iff_ne.mpr h]

theorem extends_enter {key : Nat × Bool} (h : b.placed.lookup key = none) (node : Node) :
    b.Extends (b.enter key node) := by
  refine ⟨List.prefix_append _ _, fun key' id hl => ?_⟩
  rw [lookup_enter, if_neg]
  · exact hl
  · rintro rfl
    cases h.symm.trans hl

/-- A group that is entered for the first time is remembered at a node of its own. -/
theorem Faithful.enter (hb : b.Faithful s) (h : b.placed.lookup (index, optional) = none)
    (hnode : b.Represents optional (s.group index) node) :
    (b.enter (index, optional) node).Faithful s := by
  have hextends := extends_enter h node
  have hcases : ∀ {key id}, (b.enter (index, optional) node).placed.lookup key = some id →
      key = (index, optional) ∧ id = b.nodes.length ∨
        b.placed.lookup key = some id ∧ id < b.nodes.length := by
    intro key id hl
    rw [lookup_enter] at hl
    split at hl
    · next hkey => exact .inl ⟨hkey, (Option.some.inj hl).symm⟩
    · exact .inr ⟨hl, hb.lt hl⟩
  constructor
  · intro index' optional' id hl
    obtain ⟨hkey, rfl⟩ | ⟨hl, -⟩ := hcases hl
    · obtain ⟨rfl, rfl⟩ := Prod.mk.inj hkey
      refine ⟨node, ?_, hnode.mono hextends⟩
      rw [Building.enter, List.getElem?_append_right (Nat.le_refl _), Nat.sub_self]
      rfl
    · obtain ⟨other, hother, hrepresents⟩ := hb.represents index' optional' id hl
      exact ⟨other, hextends.getElem? hother, hrepresents.mono hextends⟩
  · intro key key' id hl hl'
    obtain ⟨rfl, rfl⟩ | ⟨hl, hlt⟩ := hcases hl
    · obtain ⟨rfl, -⟩ | ⟨-, hlt⟩ := hcases hl'
      · rfl
      · exact absurd hlt (Nat.lt_irrefl _)
    · obtain ⟨-, rfl⟩ | ⟨hl', -⟩ := hcases hl'
      · exact absurd hlt (Nat.lt_irrefl _)
      · exact hb.unique key key' id hl hl'

end

end Building

open Building

/-- **A term is placed at a node that stands for it**; what is remembered stays faithful and
is kept. -/
theorem survey_stands (s : FlatSchema) :
    Survey s (Faithful s) (fun _ => Extends) () (fun _ _ => ()) (fun _ _ => ())
      fun t b id => b.Stands t id where
  refl := .refl
  trans _ _ _ _ _ := .trans
  mono _ _ _ _ _ hextends ht := ht.mono hextends
  scalar _ _ _ _ b hb := ⟨hb.push _, b.extends_push _, List.getElem?_concat_length⟩
  found _ _ _ _ b _ _ hl := ⟨.refl b, hl⟩
  enter _ _ _ _ b' node _ _ hb' hnone hnode hextends :=
    ⟨hb'.enter hnone hnode, hextends.trans (extends_enter hnone node),
      (lookup_enter b' _ _ node).trans (if_pos rfl)⟩

/-- **What construction remembers at its end** is faithful, and the root stands for the root
term. -/
theorem exists_faithful {a : Arena} (h : compile s = .ok a) :
    ∃ b : Building, (placeTerm (placeEntry s s.lookups.length) s.root).run {} = .ok (a.root, b) ∧
      b.nodes = a.nodes ∧ b.Faithful s ∧ b.Stands s.root a.root := by
  obtain ⟨b, hrun, hnodes, hb, -, hroot⟩ := (survey_stands s).compile (faithful_empty s) h
  exact ⟨b, hrun, hnodes, hb, hroot⟩

end TerseSchema
