import TerseSchema.Proofs.Nodes

/-!
# What is placed

Construction places every scalar that it meets, even where the term is under a name that
is written again and the node is left without a parent: an entry that is remembered had
its scalars placed before.  And it places nothing else: the fields of an object have names
of a group of the flat schema.

## Main definitions

* `Placed` — all scalars met below a term are nodes.
* `Node.IsNamed` — the fields of a node have names of one group.
* `Building.Keeps` — what is remembered is placed, and all nodes are named.
* `PlacesAt`, `Places` — steps that only add to such a construction.

## Main results

* `placeEntry_places` — the invariant, for one entry and all that it refers to.
* `keeps_of_compile` — **what an arena holds of a flat schema.**
-/

namespace TerseSchema

variable {s : FlatSchema}

/-! ### Nodes that stand for terms -/

/-- All scalars that are met below a term are among the nodes. -/
def Placed (s : FlatSchema) (nodes : List Node) (bound : Nat) (t : Term) : Prop :=
  MeetsScalars (fun optional type declared => .scalar optional type declared ∈ nodes) s bound t

/-- The fields of an object have names of one group. -/
def Node.IsNamed (s : FlatSchema) : Node → Prop
  | .object _ fields _ => ∃ index entries, s.group index = .object entries ∧
      ∀ name ∈ Table.names fields, name ∈ Table.names entries
  | _ => True

/-- What holds of all scalars below a term holds of them under a weaker property. -/
theorem MeetsScalars.imp {p p' : Bool → String → Option Default → Prop}
    (hp : ∀ optional type declared, p optional type declared → p' optional type declared)
    (bound : Nat) : ∀ {t : Term}, MeetsScalars p s bound t → MeetsScalars p' s bound t := by
  induction bound using Nat.strongRecOn with
  | _ bound ih =>
    rintro ⟨optional, index | ⟨type, declared⟩⟩ h
    · rw [meetsScalars_reference] at h ⊢
      intro hlt t ht
      exact ih index hlt (h hlt t ht)
    · rw [meetsScalars_scalar] at h ⊢
      exact hp optional type declared h

theorem Placed.mono {nodes more : List Node} (hsub : nodes ⊆ more) {bound : Nat} {t : Term}
    (h : Placed s nodes bound t) : Placed s more bound t :=
  MeetsScalars.imp (fun _ _ _ hmem => hsub hmem) bound h

/-- A construction that has placed what it remembers, and whose nodes are named. -/
structure Building.Keeps (s : FlatSchema) (b : Building) : Prop where
  named : ∀ node ∈ b.nodes, node.IsNamed s
  placed : ∀ index optional id, b.placed.lookup (index, optional) = some id →
    ∀ t ∈ (s.group index).terms, Placed s b.nodes index t

/-! ### Steps that only add -/

/-- A later construction has all the nodes. -/
def Wider (b b' : Building) : Prop := b.nodes ⊆ b'.nodes

/-- From a construction `b`, a step that succeeds leaves such a construction behind, takes
no node away, and gives a result that `rel` ties to the nodes. -/
def PlacesAt {α : Type} (s : FlatSchema) (rel : List Node → α → Prop) (b : Building)
    (step : Build α) : Prop :=
  MovesAt (Building.Keeps s) Wider (fun b => rel b.nodes) b step

/-- A step does so from every such construction. -/
def Places {α : Type} (s : FlatSchema) (rel : List Node → α → Prop) (step : Build α) : Prop :=
  ∀ b : Building, b.Keeps s → PlacesAt s rel b step

section
variable {α β : Type} {rel : List Node → α → Prop} {rel' : List Node → β → Prop}

theorem placesAt_pure {b : Building} {x : α} (hb : b.Keeps s) (h : rel b.nodes x) :
    PlacesAt s rel b (pure x) := by
  intro y b' hrun
  cases hrun
  exact ⟨hb, List.Subset.refl _, h⟩

/-- One step after another. -/
theorem PlacesAt.bind {b : Building} {step : Build α} {next : α → Build β}
    (h : PlacesAt s rel b step)
    (hnext : ∀ x b', b'.Keeps s → b.nodes ⊆ b'.nodes → rel b'.nodes x →
      PlacesAt s rel' b' (next x)) : PlacesAt s rel' b (step >>= next) :=
  MovesAt.bind Wider (fun _ _ _ => List.Subset.trans) h hnext

/-- Steps over a list do so one by one. -/
theorem Places.mapM {ι : Type} {rel : ι → List Node → α → Prop}
    (hmono : ∀ i {nodes more x}, nodes ⊆ more → rel i nodes x → rel i more x) {f : ι → Build α}
    {items : List ι} (h : ∀ i ∈ items, Places s (rel i) (f i)) :
    Places s (fun nodes => List.Forall₂ (fun i x => rel i nodes x) items) (items.mapM f) :=
  movesAt_mapM Wider (fun _ _ _ => List.Subset.trans) (fun _ => List.Subset.refl _)
    (fun i {_ _ x} => hmono i (x := x)) h

end

/-! ### Nodes, terms and groups -/

/-- A node that is named is added at the end. -/
theorem placeNode_places {node : Node} (h : node.IsNamed s) :
    Places s (fun nodes _ => node ∈ nodes) (placeNode node) := by
  intro b hb id b' hrun
  cases hrun
  have hsub : b.nodes ⊆ b.nodes ++ [node] := List.subset_append_left _ _
  refine ⟨⟨?_, ?_⟩, hsub, List.mem_append_right _ (List.mem_singleton_self _)⟩
  · exact List.forall_mem_append.mpr ⟨hb.named, List.forall_mem_singleton.mpr h⟩
  · intro index optional id hid t ht
    exact (hb.placed index optional id hid t ht).mono hsub

/-- The terms of a group are placed. -/
def PlacedGroup (s : FlatSchema) (nodes : List Node) (index : Nat) : Prop :=
  ∀ t ∈ (s.group index).terms, Placed s nodes index t

theorem placeTerm_places {entry : Nat → Bool → Build Nat} {bound : Nat}
    (hentry : ∀ index optional,
      Places s (fun nodes _ => index < bound → PlacedGroup s nodes index) (entry index optional))
    (t : Term) : Places s (fun nodes _ => Placed s nodes bound t) (placeTerm entry t) := by
  intro b hb id b' hrun
  obtain ⟨optional, index | ⟨type, declared⟩⟩ := t
  · obtain ⟨hb', hsub, hgroup⟩ := hentry index optional b hb id b' hrun
    exact ⟨hb', hsub, meetsScalars_reference.mpr hgroup⟩
  · have hnamed : (Node.scalar optional type declared).IsNamed s := trivial
    obtain ⟨hb', hsub, hmem⟩ := placeNode_places hnamed b hb id b' hrun
    exact ⟨hb', hsub, meetsScalars_scalar.mpr hmem⟩

/-- The node of a group is named, and behind it the terms of the group are placed. -/
theorem groupNode_places {place : Term → Build Nat} {index : Nat}
    (h : ∀ t, Places s (fun nodes _ => Placed s nodes index t) (place t)) (optional : Bool) :
    Places s (fun nodes node => node.IsNamed s ∧ PlacedGroup s nodes index)
      (groupNode place optional (s.group index)) := by
  intro b hb
  cases hgroup : s.group index with
  | array parts =>
    have hparts : Places s (fun nodes => List.Forall₂ (fun t _ => Placed s nodes index t) parts)
        (parts.mapM place) :=
      Places.mapM (fun _ _ _ _ hsub ht => ht.mono hsub) fun t _ => h t
    refine (hparts b hb).bind fun ids b' hb' _ hids => placesAt_pure hb' ⟨trivial, ?_⟩
    rw [PlacedGroup, hgroup]
    exact forall_mem_right hids.flip fun _ _ ht => ht
  | object entries =>
    have hentries : Places s (fun nodes => List.Forall₂ (fun (e : String × Term)
        (e' : String × Nat) => e'.1 = e.1 ∧ Placed s nodes index e.2) entries)
        (entries.mapM fun e => do return (e.1, ← place e.2)) := by
      refine Places.mapM (fun _ _ _ _ hsub he => ⟨he.1, he.2.mono hsub⟩) fun e _ b hb => ?_
      exact (h e.2 b hb).bind fun id b' hb' _ hplaced => placesAt_pure hb' ⟨rfl, hplaced⟩
    refine (hentries b hb).bind fun es b' hb' _ hes => placesAt_pure hb' ⟨?_, ?_⟩
    · have hnames : Table.names es = Table.names entries := by
        rw [← List.forall₂_eq_eq_eq, Table.names, Table.names, List.forall₂_map_left_iff,
          List.forall₂_map_right_iff]
        exact hes.flip.imp fun _ _ he => he.1
      refine ⟨index, entries, hgroup, fun name hname => ?_⟩
      obtain ⟨f, hf, rfl⟩ := List.mem_map.mp hname
      rw [← hnames]
      exact List.mem_map_of_mem (mem_of_mem_declaredFields hf)
    · rw [PlacedGroup, hgroup]
      exact List.forall_mem_map.mpr (forall_mem_right hes.flip fun _ _ he => he.2)

/-! ### Entries -/

/-- An entry is remembered when its group is placed. -/
theorem remember_places {b : Building} (hb : b.Keeps s) {index : Nat}
    (h : PlacedGroup s b.nodes index) (optional : Bool) (id : Nat) :
    PlacesAt s (fun nodes _ => PlacedGroup s nodes index) b (remember index optional id) := by
  intro id' b' hrun
  cases hrun
  refine ⟨⟨hb.named, ?_⟩, List.Subset.refl _, h⟩
  intro index' optional' id' hid
  rw [List.lookup_cons] at hid
  split at hid
  · next hkey =>
    obtain ⟨rfl, rfl⟩ := Prod.mk.inj (eq_of_beq hkey)
    exact h
  · exact hb.placed index' optional' id' hid

/-- **Placing an entry places its group**, and all that the group refers to, whether the
entry is remembered or not. -/
theorem placeEntry_places (s : FlatSchema) (bound : Nat) : ∀ (index : Nat) (optional : Bool),
    Places s (fun nodes _ => index < bound → PlacedGroup s nodes index)
      (placeEntry s bound index optional) := by
  induction bound with
  | zero =>
    intro index optional b _ id b' hrun
    cases hrun
  | succ below ih =>
    intro index optional b hb id b' hrun
    rcases Nat.lt_trichotomy index below with hlt | rfl | hgt
    · rw [placeEntry, if_pos hlt] at hrun
      obtain ⟨hb', hsub, hgroup⟩ := ih index optional b hb id b' hrun
      exact ⟨hb', hsub, fun _ => hgroup hlt⟩
    · rw [run_placeEntry_self] at hrun
      cases hl : b.placed.lookup (index, optional) with
      | some id' =>
        rw [hl] at hrun
        cases hrun
        exact ⟨hb, List.Subset.refl _, fun _ => hb.placed index optional id hl⟩
      | none =>
        rw [hl] at hrun
        have hgroup := groupNode_places (placeTerm_places ih) optional b hb
        have hentry := hgroup.bind fun node b₁ hb₁ _ hnode =>
          PlacesAt.bind (placeNode_places hnode.1 b₁ hb₁) fun id b₂ hb₂ hsub _ =>
            remember_places hb₂ (fun t ht => (hnode.2 t ht).mono hsub) optional id
        obtain ⟨hb', hsub, hplaced⟩ := hentry id b' hrun
        exact ⟨hb', hsub, fun _ => hplaced⟩
    · rw [placeEntry, if_neg (Nat.not_lt_of_gt hgt), if_pos (Nat.ne_of_gt hgt)] at hrun
      cases hrun

/-! ### Whole schemas -/

/-- What compiling leaves behind. -/
theorem keeps_of_compile {a : Arena} (h : compile s = .ok a) :
    (∀ node ∈ a.nodes, node.IsNamed s) ∧ Placed s a.nodes s.lookups.length s.root := by
  have hempty : Building.Keeps s {} := ⟨List.forall_mem_nil _, nofun⟩
  obtain ⟨b, hrun, hnodes⟩ := exists_run_of_compile h
  have hroot := placeTerm_places (placeEntry_places s s.lookups.length) s.root
  obtain ⟨hb, -, hplaced⟩ := hroot {} hempty a.root b hrun
  rw [← hnodes]
  exact ⟨hb.named, hplaced⟩

end TerseSchema
