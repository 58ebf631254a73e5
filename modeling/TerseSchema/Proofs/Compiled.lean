import TerseSchema.Proofs.Sharing

/-!
# What compiled schemas look like

Compiling leaves every array with a part, as splitting a text leaves at least one
piece, and every object with fields of distinct names.  The scalars of the tree
are scalars of the arena, so that what is known of the types of an arena is known
wherever a schema is walked.

A flat schema is looked at only through the terms that are read off it, so that an arena
can be told from these.

## Main definitions

* `compileGroups` — the arena of groups that refer to each other.
* `Tree.Proper` — every array has a part, and no object declares a name twice.
* `Tree.IsHereditary` — a property that reading passes on to groups.
* `Tree.AllScalars` — every scalar of a schema has a property.

## Main results

* `compile_of_groups` — the arena of a flat schema, from what is read off it.
* `holds_of_compile` — what reading passes on to groups holds of compiled schemas.
* `proper_of_compile` — **compiled schemas are proper.**
* `allScalars_tree` — a scalar of the tree is a node of the arena.
-/

namespace TerseSchema

/-! ### What is looked at -/

/-- Places an entry like `placeEntry`, given the groups that are read in the table. -/
def placeFrom (group : Nat → Group) (bound index : Nat) (optional : Bool) : Build Nat :=
  match bound with
  | 0 => throw (.danglingReference index 0)
  | below + 1 =>
    if index < below then placeFrom group below index optional
    else if index ≠ below then throw (.danglingReference index (below + 1))
    else do
      match (← get).placed.lookup (index, optional) with
      | some id => return id
      | none =>
        let node ← groupNode (placeTerm (placeFrom group below)) optional (group index)
        let id ← placeNode node
        modify fun b => { b with placed := ((index, optional), id) :: b.placed }
        return id

/-- The arena of groups that refer to each other by their places, seen from a term. -/
def compileGroups (groups : List Group) (root : Term) : Except SchemaError Arena := do
  let (id, b) ← (placeTerm (placeFrom (groups.getD · (.object [])) groups.length) root).run {}
  return ⟨b.nodes, id⟩

theorem placeFrom_group (s : FlatSchema) (bound : Nat) :
    placeFrom s.group bound = placeEntry s bound := by
  induction bound with
  | zero => rfl
  | succ below ih =>
    funext index optional
    rw [placeFrom, ih]
    rfl

/-- **The arena of a flat schema is that of what is read off it.**  What is read is small where
the texts are, and an arena is told from it at once. -/
theorem compile_of_groups {s : FlatSchema} (groups : List Group) (root : Term) {a : Arena}
    (hgroups : s.lookups.map (Group.parse s.literals) = groups) (hroot : s.root = root)
    (h : compileGroups groups root = .ok a) : compile s = .ok a := by
  have hgroup : (groups.getD · (.object [])) = s.group := by
    funext index
    have hempty : Group.parse s.literals [] = .object [] := rfl
    rw [FlatSchema.group, ← hgroups, ← hempty, List.getD_eq_getElem?_getD, List.getElem?_map,
      Option.getD_map, List.getD_eq_getElem?_getD]
  rw [compileGroups, hgroup, placeFrom_group, ← hgroups, List.length_map, ← hroot] at h
  exact h

/-- Every array has a part, and no object declares a name twice. -/
inductive Tree.Proper : Tree → Prop
  | scalar (optional : Bool) (type : String) (declared : Option Default) :
      Proper (.scalar optional type declared)
  | array {optional : Bool} {parts : List Tree} : parts ≠ [] → (∀ t ∈ parts, Proper t) →
      Proper (.array optional parts)
  | object {optional : Bool} {fields : List (String × Tree)} {wildcard : Option Tree} :
      (Table.names fields).Nodup → (∀ f ∈ fields, Proper f.2) → (∀ t ∈ wildcard, Proper t) →
      Proper (.object optional fields wildcard)

/-! ### Elaborated schemas are proper -/

/-- An array of the flat form has a part. -/
theorem Group.ne_nil_of_parse {literals : List (List Char)} {body : List Char} {parts : List Term}
    (h : Group.parse literals body = .array parts) : parts ≠ [] := by
  rw [Group.parse] at h
  split at h
  · rw [← Group.array.inj h, Ne, List.map_eq_nil_iff]
    exact List.splitOn_ne_nil _ _
  · cases h

theorem mem_snd_of_wildcard? {α : Type} {entries : List (String × α)} {x : α}
    (h : x ∈ wildcard? entries) : ∃ e ∈ entries, e.2 = x := by
  obtain ⟨e, he, rfl⟩ := Option.map_eq_some_iff.mp h
  exact ⟨e, (List.mem_filter.mp (List.mem_of_getLast? he)).1, rfl⟩

theorem mem_of_mem_declaredFields {α : Type} {entries : List (String × α)} {e : String × α}
    (h : e ∈ declaredFields entries) : e ∈ entries :=
  (List.mem_filter.mp (Table.mem_of_mem_ofEntries h)).1

/-- The entries under `*` are no fields. -/
theorem wildcardName_notMem_declaredFields {α : Type} (entries : List (String × α)) :
    wildcardName ∉ Table.names (declaredFields entries) := by
  intro hmem
  obtain ⟨e, he, hname⟩ := List.mem_map.mp hmem
  have hne := (List.mem_filter.mp (Table.mem_of_mem_ofEntries he)).2
  rw [hname] at hne
  simp at hne

/-- A property that scalars have, and that groups get from what is read in them. -/
structure Tree.IsHereditary (P : Tree → Prop) : Prop where
  scalar : ∀ optional type declared, P (.scalar optional type declared)
  array : ∀ {optional parts}, parts ≠ [] → (∀ t ∈ parts, P t) → P (.array optional parts)
  object : ∀ {optional} {entries : List (String × Tree)},
    (∀ f ∈ declaredFields entries, P f.2) → (∀ t ∈ wildcard? entries, P t) →
    P (.object optional (declaredFields entries) (wildcard? entries))

section
variable {P : Tree → Prop} (hP : Tree.IsHereditary P)
include hP

theorem holds_of_groupTree {tree : Term → Except SchemaError Tree} {optional : Bool} {g : Group}
    (hparts : ∀ parts, g = .array parts → parts ≠ [])
    (hterms : ∀ term t, tree term = .ok t → P t) {t : Tree}
    (h : groupTree tree optional g = .ok t) : P t := by
  cases g with
  | array parts =>
    rw [groupTree] at h
    cases hm : parts.mapM tree with
    | error e =>
      rw [hm] at h
      cases h
    | ok ts =>
      rw [hm] at h
      rw [← Except.ok.inj h]
      have hall := mapM_eq_ok_iff.mp hm
      refine hP.array ?_ (forall_mem_right hall hterms)
      rintro rfl
      exact hparts parts rfl (List.forall₂_nil_right_iff.mp hall)
  | object entries =>
    rw [groupTree] at h
    cases hm : entries.mapM (fun e => (do return (e.1, ← tree e.2) :
        Except SchemaError (String × Tree))) with
    | error e =>
      rw [hm] at h
      cases h
    | ok es =>
      rw [hm] at h
      rw [← Except.ok.inj h]
      have hes : ∀ e ∈ es, P e.2 := by
        refine forall_mem_right (mapM_eq_ok_iff.mp hm) fun e' e he => ?_
        cases ht : tree e'.2 with
        | error e =>
          rw [ht] at he
          cases he
        | ok t =>
          rw [ht] at he
          rw [← Except.ok.inj he]
          exact hterms _ t ht
      -- taking repeated names together drops entries, and adds none
      refine hP.object (fun f hf => hes f (mem_of_mem_declaredFields hf)) ?_
      intro t ht
      obtain ⟨e, he, rfl⟩ := mem_snd_of_wildcard? ht
      exact hes e he

theorem holds_of_entryTree (s : FlatSchema) (index : Nat) : ∀ {bound : Nat} {optional : Bool}
    {t : Tree}, entryTree s bound index optional = .ok t → P t := by
  -- an entry refers to entries of lower numbers only
  induction index using Nat.strongRecOn with
  | _ index ih =>
    intro bound optional t h
    rw [entryTree_eq] at h
    split at h
    · refine holds_of_groupTree hP (fun parts => Group.ne_nil_of_parse) (fun term t ht => ?_) h
      obtain ⟨optional, content⟩ := term
      cases content with
      | reference lower =>
        have hbelow : entryTree s index lower optional = .ok t := ht
        have hlower : lower < index := by
          rw [entryTree_eq] at hbelow
          split at hbelow
          · assumption
          · cases hbelow
        exact ih lower hlower hbelow
      | scalar type declared =>
        rw [← Except.ok.inj ht]
        exact hP.scalar _ _ _
    · cases h

/-- **What is hereditary holds of compiled schemas.** -/
theorem holds_of_compile {s : FlatSchema} {a : Arena} (h : compile s = .ok a) : P a.tree := by
  have htree := compile_map_tree s
  rw [h] at htree
  have helaborate : termTree (entryTree s s.lookups.length) s.root = .ok a.tree := htree.symm
  unfold termTree at helaborate
  split at helaborate
  · exact holds_of_entryTree hP s _ helaborate
  · rw [← Except.ok.inj helaborate]
    exact hP.scalar _ _ _

end

/-- **Compiled schemas are proper.** -/
theorem proper_of_compile {s : FlatSchema} {a : Arena} (h : compile s = .ok a) :
    a.tree.Proper :=
  holds_of_compile ⟨.scalar, .array, .object (Table.nodup_names_ofEntries _)⟩ h

/-! ### The scalars of a schema -/

/-- Every scalar of a schema has a property. -/
inductive Tree.AllScalars (p : Bool → String → Option Default → Prop) : Tree → Prop
  | scalar {optional : Bool} {type : String} {declared : Option Default} :
      p optional type declared → AllScalars p (.scalar optional type declared)
  | array {optional : Bool} {parts : List Tree} : (∀ t ∈ parts, AllScalars p t) →
      AllScalars p (.array optional parts)
  | object {optional : Bool} {fields : List (String × Tree)} {wildcard : Option Tree} :
      (∀ f ∈ fields, AllScalars p f.2) → (∀ t ∈ wildcard, AllScalars p t) →
      AllScalars p (.object optional fields wildcard)

theorem Tree.AllScalars.imp {p p' : Bool → String → Option Default → Prop}
    (hp : ∀ optional type declared, p optional type declared → p' optional type declared)
    {t : Tree} (h : t.AllScalars p) : t.AllScalars p' := by
  induction h with
  | scalar h => exact .scalar (hp _ _ _ h)
  | array _ ih => exact .array ih
  | object _ _ ih ih' => exact .object ih ih'

/-- A scalar is a node, or the scalar that any value fits. -/
def InNodes (nodes : List Node) (optional : Bool) (type : String) (declared : Option Default) :
    Prop :=
  type = "" ∨ .scalar optional type declared ∈ nodes

theorem allScalars_getD {p : Bool → String → Option Default → Prop} (hp : p false "" none)
    {ts : List Tree} (h : ∀ t ∈ ts, t.AllScalars p) (id : Nat) :
    (ts.getD id .any).AllScalars p := by
  rw [List.getD_eq_getElem?_getD]
  cases hid : ts[id]? with
  | none => exact .scalar hp
  | some t => exact h t (List.mem_of_getElem? hid)

theorem allScalars_treesOf (nodes : List Node) :
    ∀ t ∈ treesOf nodes, t.AllScalars (InNodes nodes) := by
  induction nodes using List.reverseRecOn with
  | nil => exact List.forall_mem_nil _
  | append_singleton nodes node ih =>
    have hbefore : ∀ t ∈ treesOf nodes, t.AllScalars (InNodes (nodes ++ [node])) := fun t ht =>
      (ih t ht).imp fun _ _ _ h => h.imp_right (List.mem_append_left _)
    have hid := allScalars_getD (.inl rfl) hbefore
    rw [treesOf_concat]
    refine List.forall_mem_append.mpr ⟨hbefore, List.forall_mem_singleton.mpr ?_⟩
    cases node with
    | scalar optional type declared =>
      exact .scalar (.inr (List.mem_append_right _ (List.mem_singleton_self _)))
    | array optional parts => exact .array (List.forall_mem_map.mpr fun id _ => hid id)
    | object optional fields wildcard =>
      refine .object (List.forall_mem_map.mpr fun f _ => hid f.2) fun t ht => ?_
      obtain ⟨id, -, rfl⟩ := Option.map_eq_some_iff.mp ht
      exact hid id

/-- **A scalar of the tree is a node of the arena**, if it has a type. -/
theorem allScalars_tree (a : Arena) : a.tree.AllScalars (InNodes a.nodes) :=
  allScalars_getD (.inl rfl) (allScalars_treesOf a.nodes) a.root

end TerseSchema
