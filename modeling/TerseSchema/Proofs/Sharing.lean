import TerseSchema.Proofs.Table
import TerseSchema.Schema.Tree

/-!
# Sharing does not show

The arena holds every entry of the table once for each optional mark, whoever
refers to it.  Seen from the root it is nevertheless the tree that one gets by
following every reference anew, and a reference out of bounds is met at the same
place.

The invariant is that of a memory: what is remembered of an entry denotes the
tree of that entry (`Building.Sound`).  A step of construction keeps it and only
ever appends nodes, so what was remembered before still denotes the same trees.

## Main definitions

* `treesOf`, `Denotes` — what the nodes of an arena under construction denote.
* `Building.Sound` — the invariant.
* `Follows` — a step of construction answers as a plain computation does.

## Main results

* `placeEntry_follows` — placing an entry follows the recursion over references.
* `compile_map_tree` — **compiling and elaborating give one answer.**
-/

namespace TerseSchema

/-! ### What nodes denote -/

/-- The trees of a list of nodes, each node over those before it. -/
def treesOf (nodes : List Node) : List Tree :=
  nodes.foldl (fun trees node => trees ++ [node.unfold trees]) []

theorem Arena.trees_eq (a : Arena) : a.trees = treesOf a.nodes := rfl

theorem treesOf_concat (nodes : List Node) (node : Node) :
    treesOf (nodes ++ [node]) = treesOf nodes ++ [node.unfold (treesOf nodes)] := by
  simp [treesOf, List.foldl_append]

@[simp] theorem length_treesOf (nodes : List Node) :
    (treesOf nodes).length = nodes.length := by
  induction nodes using List.reverseRecOn with
  | nil => rfl
  | append_singleton nodes node ih =>
    rw [treesOf_concat, List.length_append, List.length_append, ih]
    rfl

/-- Nodes placed later change no tree. -/
theorem treesOf_isPrefix {nodes more : List Node} (h : nodes <+: more) :
    treesOf nodes <+: treesOf more := by
  obtain ⟨later, rfl⟩ := h
  induction later using List.reverseRecOn with
  | nil => simp
  | append_singleton later node ih =>
    rw [← List.append_assoc, treesOf_concat]
    exact ih.trans (List.prefix_append _ _)

/-- The node at a place denotes a tree. -/
def Denotes (nodes : List Node) (id : Nat) (t : Tree) : Prop := (treesOf nodes)[id]? = some t

theorem Denotes.mono {nodes more : List Node} {id : Nat} {t : Tree} (h : Denotes nodes id t)
    (hp : nodes <+: more) : Denotes more id t := by
  obtain ⟨later, hl⟩ := treesOf_isPrefix hp
  have hid : id < (treesOf nodes).length := (List.getElem?_eq_some_iff.mp h).1
  rw [Denotes, ← hl, List.getElem?_append_left hid]
  exact h

theorem Denotes.getD {nodes : List Node} {id : Nat} {t : Tree} (h : Denotes nodes id t) :
    (treesOf nodes).getD id .any = t := by
  rw [List.getD_eq_getElem?_getD, h, Option.getD_some]

/-- A node just placed denotes what it unfolds to. -/
theorem denotes_concat (nodes : List Node) (node : Node) :
    Denotes (nodes ++ [node]) nodes.length (node.unfold (treesOf nodes)) := by
  rw [Denotes, treesOf_concat, List.getElem?_append_right (Nat.le_of_eq (length_treesOf nodes)),
    length_treesOf, Nat.sub_self]
  rfl

/-! ### The invariant of construction -/

/-- **The recursion over references, said at once**: entry `index` may be referred
to if it is below the bound, and its own terms may refer to the entries below it. -/
theorem entryTree_eq (s : FlatSchema) (bound index : Nat) (optional : Bool) :
    entryTree s bound index optional =
      if index < bound then groupTree (termTree (entryTree s index)) optional (s.group index)
      else .error (.danglingReference index bound) := by
  induction bound with
  | zero => rfl
  | succ below ih =>
    rw [entryTree]
    by_cases hlt : index < below
    · rw [if_pos hlt, ih, if_pos hlt, if_pos (Nat.lt_succ_of_lt hlt)]
    · by_cases heq : index = below
      · subst heq
        rw [if_neg hlt, if_neg (not_not_intro rfl), if_pos (Nat.lt_succ_self _)]
      · rw [if_neg hlt, if_pos heq, if_neg (by omega)]

/-- What is remembered of an entry denotes the tree of that entry. -/
def Building.Sound (s : FlatSchema) (b : Building) : Prop :=
  ∀ index optional id, b.placed.lookup (index, optional) = some id →
    ∃ t, entryTree s (index + 1) index optional = .ok t ∧ Denotes b.nodes id t

theorem Building.sound_empty (s : FlatSchema) : Building.Sound s {} := by
  intro index optional id h
  simp at h

/-- A construction stays sound while nodes are appended. -/
theorem Building.Sound.mono {s : FlatSchema} {b b' : Building} (h : b.Sound s)
    (hplaced : b'.placed = b.placed) (hp : b.nodes <+: b'.nodes) : b'.Sound s := by
  intro index optional id hl
  obtain ⟨t, ht, hd⟩ := h index optional id (hplaced ▸ hl)
  exact ⟨t, ht, hd.mono hp⟩

/-- A construction stays sound when an entry is remembered by its tree. -/
theorem Building.Sound.remember {s : FlatSchema} {b : Building} (h : b.Sound s)
    {index id : Nat} {optional : Bool} {t : Tree}
    (ht : entryTree s (index + 1) index optional = .ok t) (hd : Denotes b.nodes id t) :
    Building.Sound s { b with placed := ((index, optional), id) :: b.placed } := by
  intro index' optional' id' hl
  rw [List.lookup_cons] at hl
  split at hl
  · next hk =>
    obtain ⟨rfl, rfl⟩ := Prod.mk.inj (eq_of_beq hk)
    exact ⟨t, ht, Option.some.inj hl ▸ hd⟩
  · exact h index' optional' id' hl

/-! ### Following a plain computation -/

/-- From a construction `b`, a step answers as a plain computation: it fails with
the same error, or leaves a sound construction that has only grown, and a result
that `rel` ties to the answer. -/
def FollowsAt {α β : Type} (s : FlatSchema) (rel : List Node → α → β → Prop) (b : Building)
    (step : Build α) (answer : Except SchemaError β) : Prop :=
  match answer with
  | .error e => step.run b = .error e
  | .ok y => ∃ x b', step.run b = .ok (x, b') ∧ b'.Sound s ∧ b.nodes <+: b'.nodes ∧
      rel b'.nodes x y

/-- A step follows a plain computation from every sound construction. -/
def Follows {α β : Type} (s : FlatSchema) (rel : List Node → α → β → Prop)
    (step : Build α) (answer : Except SchemaError β) : Prop :=
  ∀ b : Building, b.Sound s → FollowsAt s rel b step answer

section
variable {α β γ δ : Type} {s : FlatSchema}

theorem run_bind_eq (step : Build α) (next : α → Build γ) (b : Building) :
    (step >>= next).run b = (step.run b).bind fun p => (next p.1).run p.2 := rfl

theorem followsAt_pure {rel : List Node → α → β → Prop} {b : Building} {x : α} {y : β}
    (hb : b.Sound s) (h : rel b.nodes x y) : FollowsAt s rel b (pure x) (.ok y) :=
  ⟨x, b, rfl, hb, List.prefix_rfl, h⟩

/-- One step after another. -/
theorem FollowsAt.bind {rel : List Node → α → β → Prop} {rel' : List Node → γ → δ → Prop}
    {b : Building} {step : Build α} {answer : Except SchemaError β} {next : α → Build γ}
    {more : β → Except SchemaError δ} (h : FollowsAt s rel b step answer)
    (hnext : ∀ x y b', answer = .ok y → b'.Sound s → b.nodes <+: b'.nodes →
      rel b'.nodes x y → FollowsAt s rel' b' (next x) (more y)) :
    FollowsAt s rel' b (step >>= next) (answer >>= more) := by
  cases answer with
  | error e =>
    have hrun : step.run b = .error e := h
    show (step >>= next).run b = .error e
    rw [run_bind_eq, hrun]
    rfl
  | ok y =>
    obtain ⟨x, b', hrun, hb', hp, hr⟩ := h
    have h' := hnext x y b' rfl hb' hp hr
    show FollowsAt s rel' b (step >>= next) (more y)
    cases hy : more y with
    | error e =>
      rw [hy] at h'
      have hrun' : (next x).run b' = .error e := h'
      show (step >>= next).run b = .error e
      rw [run_bind_eq, hrun]
      exact hrun'
    | ok z =>
      rw [hy] at h'
      obtain ⟨w, b'', hrun', hb'', hp', hr'⟩ := h'
      refine ⟨w, b'', ?_, hb'', hp.trans hp', hr'⟩
      rw [run_bind_eq, hrun]
      exact hrun'

/-- A relation that later nodes leave alone. -/
def Stable (rel : List Node → α → β → Prop) : Prop :=
  ∀ nodes more x y, nodes <+: more → rel nodes x y → rel more x y

/-- Steps over a list follow one by one. -/
theorem Follows.mapM {ι : Type} {rel : List Node → α → β → Prop} (hrel : Stable rel)
    {f : ι → Build α} {g : ι → Except SchemaError β} {items : List ι}
    (h : ∀ i ∈ items, Follows s rel (f i) (g i)) :
    Follows s (fun nodes => List.Forall₂ (rel nodes)) (items.mapM f) (items.mapM g) := by
  induction items with
  | nil =>
    intro b hb
    rw [List.mapM_nil, List.mapM_nil]
    exact followsAt_pure hb .nil
  | cons i items ih =>
    intro b hb
    rw [List.mapM_cons, List.mapM_cons]
    refine (h i List.mem_cons_self b hb).bind fun x y b' _ hb' _ hr => ?_
    have ih' := ih (fun j hj => h j (List.mem_cons_of_mem _ hj)) b' hb'
    exact ih'.bind fun xs ys b'' _ hb'' hp hrs =>
      followsAt_pure hb'' (.cons (hrel _ _ _ _ hp hr) hrs)

end

/-! ### Nodes, terms and groups -/

theorem stable_denotes : Stable Denotes := fun _ _ _ _ hp h => h.mono hp

/-- Placing a node that unfolds to a tree. -/
theorem placeNode_followsAt {s : FlatSchema} {b : Building} {node : Node} {t : Tree}
    (hb : b.Sound s) (h : node.unfold (treesOf b.nodes) = t) :
    FollowsAt s Denotes b (placeNode node) (.ok t) := by
  have hp : b.nodes <+: b.nodes ++ [node] := List.prefix_append _ _
  exact ⟨b.nodes.length, { b with nodes := b.nodes ++ [node] }, rfl, hb.mono rfl hp, hp,
    h ▸ denotes_concat b.nodes node⟩

theorem placeTerm_follows {s : FlatSchema} {entry : Nat → Bool → Build Nat}
    {tree : Nat → Bool → Except SchemaError Tree}
    (h : ∀ index optional, Follows s Denotes (entry index optional) (tree index optional))
    (t : Term) : Follows s Denotes (placeTerm entry t) (termTree tree t) := by
  intro b hb
  obtain ⟨optional, content⟩ := t
  cases content with
  | reference index => exact h index optional b hb
  | scalar type declared => exact placeNode_followsAt hb rfl

/-- The node of a group denotes the tree of the group, once it is placed. -/
def Unfolds (nodes : List Node) (node : Node) (t : Tree) : Prop :=
  node.unfold (treesOf nodes) = t

/-- Two entries of one name, the first of which holds a node of the tree that the
second holds. -/
def EntryDenotes (nodes : List Node) (e : String × Nat) (e' : String × Tree) : Prop :=
  e.1 = e'.1 ∧ Denotes nodes e.2 e'.2

theorem map_getD_of_denotes {nodes : List Node} {ids : List Nat} {ts : List Tree}
    (h : List.Forall₂ (Denotes nodes) ids ts) :
    ids.map ((treesOf nodes).getD · .any) = ts := by
  induction h with
  | nil => rfl
  | cons hd _ ih => rw [List.map_cons, hd.getD, ih]

theorem map_getD_of_entryDenotes {nodes : List Node} {es : List (String × Nat)}
    {es' : List (String × Tree)} (h : List.Forall₂ (EntryDenotes nodes) es es') :
    es.map (Prod.map id ((treesOf nodes).getD · .any)) = es' := by
  induction h with
  | nil => rfl
  | cons hd _ ih => rw [List.map_cons, ih, Prod.map, id, hd.1, hd.2.getD]

theorem groupNode_follows {s : FlatSchema} {place : Term → Build Nat}
    {tree : Term → Except SchemaError Tree} (h : ∀ t, Follows s Denotes (place t) (tree t))
    (optional : Bool) (g : Group) :
    Follows s Unfolds (groupNode place optional g) (groupTree tree optional g) := by
  intro b hb
  cases g with
  | array parts =>
    refine (Follows.mapM stable_denotes (fun t _ => h t) b hb).bind fun ids ts b' _ hb' _ hr => ?_
    refine followsAt_pure hb' ?_
    rw [Unfolds, Node.unfold, map_getD_of_denotes hr]
  | object entries =>
    have hentry : ∀ e ∈ entries, Follows s EntryDenotes
        (do return (e.1, ← place e.2)) (do return (e.1, ← tree e.2)) := fun e _ b hb =>
      (h e.2 b hb).bind fun _ _ _ _ hb' _ hr => followsAt_pure hb' ⟨rfl, hr⟩
    have hstable : Stable EntryDenotes := fun _ _ _ _ hp hr => ⟨hr.1, hr.2.mono hp⟩
    refine (Follows.mapM hstable hentry b hb).bind fun es es' b' _ hb' _ hr => ?_
    refine followsAt_pure hb' ?_
    -- names stay where they are when ids are replaced by what they denote
    rw [← map_getD_of_entryDenotes hr, declaredFields_map, wildcard?_map]
    rfl

/-! ### Entries -/

/-- Remembering where an entry is placed. -/
def remember (index : Nat) (optional : Bool) (id : Nat) : Build Nat := do
  modify fun b => { b with placed := ((index, optional), id) :: b.placed }
  return id

theorem remember_followsAt {s : FlatSchema} {b : Building} {index id : Nat} {optional : Bool}
    {t : Tree} (hb : b.Sound s) (ht : entryTree s (index + 1) index optional = .ok t)
    (hd : Denotes b.nodes id t) : FollowsAt s Denotes b (remember index optional id) (.ok t) :=
  ⟨id, _, rfl, hb.remember ht hd, List.prefix_rfl, hd⟩

/-- Placing the topmost entry below the bound: it is remembered, or its group is
placed and remembered. -/
theorem run_placeEntry_self (s : FlatSchema) (index : Nat) (optional : Bool) (b : Building) :
    (placeEntry s (index + 1) index optional).run b =
      match b.placed.lookup (index, optional) with
      | some id => .ok (id, b)
      | none => (groupNode (placeTerm (placeEntry s index)) optional (s.group index) >>=
          fun node => placeNode node >>= remember index optional).run b := by
  rw [placeEntry, if_neg (Nat.lt_irrefl _), if_neg (not_not_intro rfl), run_bind_eq]
  show StateT.run (match b.placed.lookup (index, optional) with | some id => _ | none => _) b = _
  cases b.placed.lookup (index, optional) <;> rfl

/-- **Placing an entry follows the recursion over references**, whether the entry
is remembered or not. -/
theorem placeEntry_follows (s : FlatSchema) (bound : Nat) : ∀ (index : Nat) (optional : Bool),
    Follows s Denotes (placeEntry s bound index optional) (entryTree s bound index optional) := by
  induction bound with
  | zero => exact fun _ _ _ _ => rfl
  | succ below ih =>
    intro index optional b hb
    rcases Nat.lt_trichotomy index below with hlt | rfl | hgt
    · rw [placeEntry, entryTree, if_pos hlt, if_pos hlt]
      exact ih index optional b hb
    · have hrun := run_placeEntry_self s index optional b
      cases hl : b.placed.lookup (index, optional) with
      | some id =>
        -- the memory answers with the tree that elaboration would build again
        obtain ⟨t, ht, hd⟩ := hb index optional id hl
        rw [hl] at hrun
        rw [ht]
        exact ⟨id, b, hrun, hb, List.prefix_rfl, hd⟩
      | none =>
        have htree := entryTree_eq s (index + 1) index optional
        rw [if_pos (Nat.lt_succ_self _)] at htree
        have hplace : FollowsAt s Denotes b
            (groupNode (placeTerm (placeEntry s index)) optional (s.group index) >>=
              fun node => placeNode node >>= remember index optional)
            (groupTree (termTree (entryTree s index)) optional (s.group index) >>=
              fun t => pure t >>= pure) := by
          refine (groupNode_follows (placeTerm_follows ih) optional _ b hb).bind
            fun node t b' ht hb' _ hn => ?_
          refine (placeNode_followsAt hb' hn).bind fun id t' b'' ht' hb'' _ hd => ?_
          obtain rfl := Except.ok.inj ht'
          exact remember_followsAt hb'' (htree.trans ht) hd
        rw [htree]
        rw [hl] at hrun
        simp only [bind_pure] at hplace
        unfold FollowsAt at hplace ⊢
        rw [hrun]
        exact hplace
    · have hlt : ¬ index < below := Nat.not_lt_of_gt hgt
      have hne : index ≠ below := Nat.ne_of_gt hgt
      rw [placeEntry, entryTree, if_neg hlt, if_neg hlt, if_pos hne, if_pos hne]
      rfl

/-! ### Whole schemas -/

/-- **Compiling and elaborating give one answer**: the arena seen from its root is
the tree, and an error is the same error. -/
theorem compile_map_tree (s : FlatSchema) : (compile s).map Arena.tree = s.elaborate := by
  have h := placeTerm_follows (placeEntry_follows s s.lookups.length) s.root {}
    (Building.sound_empty s)
  have hcompile : compile s = ((placeTerm (placeEntry s s.lookups.length) s.root).run {}).bind
      fun p => .ok ⟨p.2.nodes, p.1⟩ := rfl
  rw [hcompile]
  cases he : s.elaborate with
  | error e =>
    rw [FlatSchema.elaborate] at he
    rw [he] at h
    have hrun : (placeTerm (placeEntry s s.lookups.length) s.root).run {} = .error e := h
    rw [hrun]
    rfl
  | ok t =>
    rw [FlatSchema.elaborate] at he
    rw [he] at h
    obtain ⟨id, b, hrun, -, -, hd⟩ := h
    rw [hrun]
    show Except.ok (Arena.tree ⟨b.nodes, id⟩) = Except.ok t
    rw [Arena.tree, Arena.trees_eq, hd.getD]

/-- What elaborates compiles. -/
theorem compile_of_elaborate {s : FlatSchema} {t : Tree} (h : s.elaborate = .ok t) :
    ∃ a, compile s = .ok a ∧ a.tree = t := by
  have hmap := compile_map_tree s
  rw [h] at hmap
  cases ha : compile s with
  | error e =>
    rw [ha] at hmap
    cases hmap
  | ok a =>
    rw [ha] at hmap
    exact ⟨a, rfl, Except.ok.inj hmap⟩

end TerseSchema
