import TerseSchema.Proofs.Compiled

/-!
# What stands in a compiled arena

Construction only ever appends nodes, and remembers an entry only once its node is
there.  Whatever the texts of a flat schema hold, a node is therefore placed behind
its children, and the node of the root behind all others.

## Main definitions

* `MeetsScalars` — what holds of every scalar met below a term.
* `Node.Fits` — a node that may stand at a place of an arena.
* `Building.Stocked` — every node of a construction fits its place.
* `MovesAt` — a step that keeps an invariant of the construction.
* `KeepsAt`, `Keeps` — steps that leave a stocked construction behind.

## Main results

* `placeEntry_keepsAt` — the invariant, for one entry and all that it refers to.
* `fits_of_compile`, `root_of_compile` — **every node of a compiled arena fits its
  place, and the root is the last one.**
-/

namespace TerseSchema

variable {p : Bool → String → Option Default → Prop} {s : FlatSchema}

/-! ### The scalars that are met -/

/-- A property holds of every scalar met below a term: of its own, or of those of
the entry that it refers to.  A reference out of bounds leads no further. -/
def MeetsScalars (p : Bool → String → Option Default → Prop) (s : FlatSchema) (bound : Nat)
    (t : Term) : Prop :=
  match t.content with
  | .scalar type declared => p t.optional type declared
  | .reference index => ∀ _ : index < bound, ∀ t' ∈ (s.group index).terms, MeetsScalars p s index t'
termination_by bound

theorem meetsScalars_scalar {bound : Nat} {optional : Bool} {type : String}
    {declared : Option Default} :
    MeetsScalars p s bound ⟨optional, .scalar type declared⟩ ↔ p optional type declared := by
  rw [MeetsScalars]

theorem meetsScalars_reference {bound index : Nat} {optional : Bool} :
    MeetsScalars p s bound ⟨optional, .reference index⟩ ↔
      (index < bound → ∀ t ∈ (s.group index).terms, MeetsScalars p s index t) := by
  rw [MeetsScalars]

/-- What holds of all scalars holds of those that are met. -/
theorem meetsScalars_of_forall (hp : ∀ optional type declared, p optional type declared)
    (s : FlatSchema) (bound : Nat) : ∀ t : Term, MeetsScalars p s bound t := by
  induction bound using Nat.strongRecOn with
  | _ bound ih =>
    rintro ⟨optional, index | ⟨type, declared⟩⟩
    · rw [meetsScalars_reference]
      intro hlt t _
      exact ih index hlt t
    · rw [meetsScalars_scalar]
      exact hp optional type declared

/-! ### Nodes at their places -/

/-- A node that may stand at a place of an arena: a scalar with a property, an array
with a part, or an object whose fields have distinct names other than `*`, with all
children at earlier places. -/
inductive Node.Fits (p : Bool → String → Option Default → Prop) (id : Nat) : Node → Prop
  | scalar {optional : Bool} {type : String} {declared : Option Default} :
      p optional type declared → Fits p id (.scalar optional type declared)
  | array {optional : Bool} {parts : List Nat} : parts ≠ [] → (∀ child ∈ parts, child < id) →
      Fits p id (.array optional parts)
  | object {optional : Bool} {fields : List (String × Nat)} {wildcard : Option Nat} :
      (Table.names fields).Nodup → wildcardName ∉ Table.names fields →
      (∀ f ∈ fields, f.2 < id) → (∀ child ∈ wildcard, child < id) →
      Fits p id (.object optional fields wildcard)

/-- A construction whose nodes fit their places and whose memory points at nodes. -/
structure Building.Stocked (p : Bool → String → Option Default → Prop) (b : Building) : Prop where
  nodes : ∀ (id : Nat) (node : Node), b.nodes[id]? = some node → node.Fits p id
  placed : ∀ key id, b.placed.lookup key = some id → id < b.nodes.length

theorem Building.stocked_empty : Building.Stocked p {} := by
  constructor
  · intro id node h
    simp at h
  · intro key id h
    simp at h

/-- A node that fits is added at the end. -/
theorem Building.Stocked.add {b : Building} (hb : b.Stocked p) {node : Node}
    (h : node.Fits p b.nodes.length) :
    Building.Stocked p { b with nodes := b.nodes ++ [node] } := by
  constructor
  · intro id other hid
    rcases Nat.lt_trichotomy id b.nodes.length with hlt | rfl | hgt
    · rw [List.getElem?_append_left hlt] at hid
      exact hb.nodes id other hid
    · rw [List.getElem?_append_right (Nat.le_refl _), Nat.sub_self] at hid
      obtain rfl := Option.some.inj hid
      exact h
    · have hlength := (List.getElem?_eq_some_iff.mp hid).1
      simp only [List.length_append, List.length_singleton] at hlength
      omega
  · intro key id hid
    have hlt := hb.placed key id hid
    simp only [List.length_append]
    omega

/-- An entry is remembered at a node that is there. -/
theorem Building.Stocked.remember {b : Building} (hb : b.Stocked p) {key : Nat × Bool} {id : Nat}
    (h : id < b.nodes.length) :
    Building.Stocked p { b with placed := (key, id) :: b.placed } := by
  refine ⟨hb.nodes, ?_⟩
  intro key' id' hid
  rw [List.lookup_cons] at hid
  split at hid
  · exact Option.some.inj hid ▸ h
  · exact hb.placed key' id' hid

/-! ### Steps that keep an invariant -/

/-- From a construction `b`, a step that succeeds keeps an invariant, moves along an
order, and gives a result that `rel` ties to the construction. -/
def MovesAt {α : Type} (inv : Building → Prop) (order : Building → Building → Prop)
    (rel : Building → α → Prop) (b : Building) (step : Build α) : Prop :=
  ∀ x b', step.run b = .ok (x, b') → inv b' ∧ order b b' ∧ rel b' x

section
variable {α β : Type} {inv : Building → Prop}

/-- One step after another, where each moves in its own way. -/
theorem MovesAt.bind_of {first second both : Building → Building → Prop}
    (trans : ∀ b b' b'', first b b' → second b' b'' → both b b'') {rel : Building → α → Prop}
    {rel' : Building → β → Prop} {b : Building} {step : Build α} {next : α → Build β}
    (h : MovesAt inv first rel b step)
    (hnext : ∀ x b', inv b' → first b b' → rel b' x → MovesAt inv second rel' b' (next x)) :
    MovesAt inv both rel' b (step >>= next) := by
  intro y b'' hrun
  rw [run_bind_eq] at hrun
  cases hstep : step.run b with
  | error e =>
    rw [hstep] at hrun
    cases hrun
  | ok q =>
    rw [hstep] at hrun
    obtain ⟨hb', hmove, hrel⟩ := h q.1 q.2 hstep
    obtain ⟨hb'', hmove', hrel'⟩ := hnext q.1 q.2 hb' hmove hrel y b'' hrun
    exact ⟨hb'', trans _ _ _ hmove hmove', hrel'⟩

/-- Steps over a list, one by one, where each moves by an amount of its own; what holds
of a result holds on along every move. -/
theorem movesAt_mapM_of {M : Type} (move : M → Building → Building → Prop) (zero : M)
    (add : M → M → M) (refl : ∀ b, move zero b b)
    (trans : ∀ m m' b b' b'', move m b b' → move m' b' b'' → move (add m m') b b'')
    {ι : Type} (amount : ι → M) {rel : ι → Building → α → Prop}
    (hmono : ∀ i m {b b' x}, move m b b' → rel i b x → rel i b' x) {f : ι → Build α}
    {items : List ι}
    (h : ∀ i ∈ items, ∀ b, inv b → MovesAt inv (move (amount i)) (rel i) b (f i)) :
    ∀ b, inv b → MovesAt inv (move (items.foldr (fun i => add (amount i)) zero))
      (fun b => List.Forall₂ (fun i x => rel i b x) items) b (items.mapM f) := by
  induction items with
  | nil =>
    intro b hb xs b' hrun
    rw [List.mapM_nil] at hrun
    cases hrun
    exact ⟨hb, refl b, .nil⟩
  | cons i items ih =>
    intro b hb
    obtain ⟨hi, hitems⟩ := List.forall_mem_cons.mp h
    rw [List.mapM_cons]
    refine (hi b hb).bind_of (trans _ _) fun x b' hb' _ hx => ?_
    refine (ih hitems b' hb').bind_of (fun b b' b'' hmove (e : b' = b'') => e ▸ hmove)
      fun xs b'' hb'' hmove hxs => ?_
    intro ys b₃ hrun
    cases hrun
    exact ⟨hb'', rfl, .cons (hmono i _ hmove hx) hxs⟩

end

section
variable {α β : Type} {inv : Building → Prop} (order : Building → Building → Prop)
  (trans : ∀ b b' b'', order b b' → order b' b'' → order b b'')
include trans

/-- One step after another. -/
theorem MovesAt.bind {rel : Building → α → Prop} {rel' : Building → β → Prop} {b : Building}
    {step : Build α} {next : α → Build β} (h : MovesAt inv order rel b step)
    (hnext : ∀ x b', inv b' → order b b' → rel b' x → MovesAt inv order rel' b' (next x)) :
    MovesAt inv order rel' b (step >>= next) :=
  h.bind_of trans hnext

/-- Steps over a list, one by one; what holds of a result holds on along the order. -/
theorem movesAt_mapM (refl : ∀ b, order b b) {ι : Type} {rel : ι → Building → α → Prop}
    (hmono : ∀ i {b b' x}, order b b' → rel i b x → rel i b' x) {f : ι → Build α}
    {items : List ι} (h : ∀ i ∈ items, ∀ b, inv b → MovesAt inv order (rel i) b (f i)) :
    ∀ b, inv b → MovesAt inv order (fun b => List.Forall₂ (fun i x => rel i b x) items) b
      (items.mapM f) :=
  movesAt_mapM_of (fun _ => order) () (fun _ _ => ()) refl (fun _ _ => trans) (fun _ => ())
    (fun i _ {_ _ x} => hmono i (x := x)) h

end

/-! ### Steps that keep a construction stocked -/

/-- From a construction `b`, a step that succeeds leaves a stocked construction
behind, takes no node away, and gives a result that `rel` ties to the number of
nodes. -/
def KeepsAt {α : Type} (p : Bool → String → Option Default → Prop) (rel : Nat → α → Prop)
    (b : Building) (step : Build α) : Prop :=
  ∀ x b', step.run b = .ok (x, b') →
    b'.Stocked p ∧ b.nodes.length ≤ b'.nodes.length ∧ rel b'.nodes.length x

/-- A step does so from every stocked construction. -/
def Keeps {α : Type} (p : Bool → String → Option Default → Prop) (rel : Nat → α → Prop)
    (step : Build α) : Prop :=
  ∀ b : Building, b.Stocked p → KeepsAt p rel b step

/-- A later construction has no fewer nodes. -/
def Longer (b b' : Building) : Prop := b.nodes.length ≤ b'.nodes.length

section
variable {α β : Type} {rel : Nat → α → Prop} {rel' : Nat → β → Prop}

theorem keepsAt_pure {b : Building} {x : α} (hb : b.Stocked p) (h : rel b.nodes.length x) :
    KeepsAt p rel b (pure x) := by
  intro y b' hrun
  cases hrun
  exact ⟨hb, Nat.le_refl _, h⟩

theorem keepsAt_throw (b : Building) (e : SchemaError) : KeepsAt p rel b (throw e) := by
  intro x b' hrun
  cases hrun

/-- One step after another. -/
theorem KeepsAt.bind {b : Building} {step : Build α} {next : α → Build β}
    (h : KeepsAt p rel b step)
    (hnext : ∀ x b', b'.Stocked p → b.nodes.length ≤ b'.nodes.length → rel b'.nodes.length x →
      KeepsAt p rel' b' (next x)) : KeepsAt p rel' b (step >>= next) :=
  MovesAt.bind Longer (fun _ _ _ => Nat.le_trans) h hnext

/-- Steps over a list keep it one by one. -/
theorem Keeps.mapM {ι : Type} (hmono : ∀ n n' x, n ≤ n' → rel n x → rel n' x) {f : ι → Build α}
    {items : List ι} (h : ∀ i ∈ items, Keeps p rel (f i)) :
    Keeps p (fun n xs => xs.length = items.length ∧ ∀ x ∈ xs, rel n x) (items.mapM f) := by
  intro b hb xs b' hrun
  obtain ⟨hb', hle, hxs⟩ := movesAt_mapM Longer (fun _ _ _ => Nat.le_trans)
    (fun _ => Nat.le_refl _) (fun _ {_ _ x} => hmono _ _ x) h b hb xs b' hrun
  exact ⟨hb', hle, hxs.length_eq.symm, forall_mem_right hxs fun _ _ hx => hx⟩

end

/-! ### Nodes, terms and groups -/

/-- The number of one of `n` nodes. -/
def Below (n id : Nat) : Prop := id < n

theorem Below.mono (n n' id : Nat) (h : n ≤ n') (hid : Below n id) : Below n' id :=
  Nat.lt_of_lt_of_le hid h

theorem placeNode_keepsAt {b : Building} (hb : b.Stocked p) {node : Node}
    (h : node.Fits p b.nodes.length) :
    KeepsAt p (fun n id => id + 1 = n) b (placeNode node) := by
  intro id b' hrun
  cases hrun
  refine ⟨hb.add h, ?_, ?_⟩
  · simp
  · simp

theorem placeTerm_keeps {entry : Nat → Bool → Build Nat} {bound : Nat}
    (hentry : ∀ index optional,
      (index < bound → ∀ t ∈ (s.group index).terms, MeetsScalars p s index t) →
      Keeps p Below (entry index optional)) {t : Term} (ht : MeetsScalars p s bound t) :
    Keeps p Below (placeTerm entry t) := by
  intro b hb
  obtain ⟨optional, index | ⟨type, declared⟩⟩ := t
  · exact hentry index optional (meetsScalars_reference.mp ht) b hb
  · intro id b' hrun
    obtain ⟨hb', hle, hid⟩ := placeNode_keepsAt hb (.scalar (meetsScalars_scalar.mp ht)) id b' hrun
    exact ⟨hb', hle, by rw [Below]; omega⟩

/-- The node of a group fits behind the nodes of its terms. -/
theorem groupNode_keeps {place : Term → Build Nat} {g : Group}
    (hparts : ∀ parts, g = .array parts → parts ≠ [])
    (h : ∀ t ∈ g.terms, Keeps p Below (place t)) (optional : Bool) :
    Keeps p (fun n node => node.Fits p n) (groupNode place optional g) := by
  intro b hb
  cases g with
  | array parts =>
    refine (Keeps.mapM Below.mono h b hb).bind fun ids b' hb' _ ⟨hlength, hids⟩ => ?_
    refine keepsAt_pure hb' (.array ?_ hids)
    rintro rfl
    exact hparts parts rfl (List.length_eq_zero_iff.mp hlength.symm)
  | object entries =>
    have hentry : ∀ e ∈ entries, Keeps p (fun n (e' : String × Nat) => Below n e'.2)
        (do return (e.1, ← place e.2)) := by
      intro e he b hb
      have hterm := h e.2 (List.mem_map_of_mem he)
      exact (hterm b hb).bind fun id b' hb' _ hid => keepsAt_pure hb' hid
    refine (Keeps.mapM (fun n n' e => Below.mono n n' e.2) hentry b hb).bind
      fun es b' hb' _ ⟨_, hes⟩ => keepsAt_pure hb' ?_
    refine .object (Table.nodup_names_ofEntries _) (wildcardName_notMem_declaredFields es)
      (fun f hf => hes f (mem_of_mem_declaredFields hf)) ?_
    intro id hid
    obtain ⟨e, he, rfl⟩ := mem_snd_of_wildcard? hid
    exact hes e he

/-! ### Entries -/

/-- A group that is placed stands behind everything else, and is remembered there. -/
theorem placeGroup_keepsAt {b : Building} {index : Nat} {optional : Bool} {group : Build Node}
    (h : KeepsAt p (fun n node => node.Fits p n) b group) :
    KeepsAt p (fun n id => id + 1 = n) b
      (group >>= fun node => placeNode node >>= remember index optional) := by
  refine h.bind fun node b₁ hb₁ _ hnode => ?_
  refine (placeNode_keepsAt hb₁ hnode).bind fun id b₂ hb₂ _ hid => ?_
  intro id' b₃ hrun
  cases hrun
  exact ⟨hb₂.remember (by omega), Nat.le_refl _, hid⟩

/-- **Placing an entry keeps a construction stocked**, if what it meets has the
property that the scalars are to have.  Unless the entry was remembered, its node is
the last one. -/
theorem placeEntry_keepsAt (s : FlatSchema) (bound : Nat) : ∀ (index : Nat) (optional : Bool),
    (index < bound → ∀ t ∈ (s.group index).terms, MeetsScalars p s index t) →
    ∀ b : Building, b.Stocked p →
      KeepsAt p (fun n id => id < n ∧ (b.placed.lookup (index, optional) = none → id + 1 = n)) b
        (placeEntry s bound index optional) := by
  induction bound with
  | zero => exact fun index optional _ b _ => keepsAt_throw b _
  | succ below ih =>
    intro index optional hmeets b hb
    rcases Nat.lt_trichotomy index below with hlt | rfl | hgt
    · rw [placeEntry, if_pos hlt]
      exact ih index optional (fun _ => hmeets (Nat.lt_succ_of_lt hlt)) b hb
    · intro id b' hrun
      rw [run_placeEntry_self] at hrun
      cases hl : b.placed.lookup (index, optional) with
      | some id' =>
        rw [hl] at hrun
        cases hrun
        exact ⟨hb, Nat.le_refl _, hb.placed _ _ hl, fun h => by cases h⟩
      | none =>
        rw [hl] at hrun
        have hterms : ∀ t ∈ (s.group index).terms,
            Keeps p Below (placeTerm (placeEntry s index) t) := by
          intro t ht
          refine placeTerm_keeps (fun lower optional' h b hb id b' hrun => ?_)
            (hmeets (Nat.lt_succ_self index) t ht)
          obtain ⟨hb', hle, hid, -⟩ := ih lower optional' h b hb id b' hrun
          exact ⟨hb', hle, hid⟩
        have hgroup := groupNode_keeps (fun _ => Group.ne_nil_of_parse) hterms optional b hb
        obtain ⟨hb', hle, hid⟩ := placeGroup_keepsAt hgroup id b' hrun
        exact ⟨hb', hle, by omega, fun _ => hid⟩
    · rw [placeEntry, if_neg (Nat.not_lt_of_gt hgt), if_pos (Nat.ne_of_gt hgt)]
      exact keepsAt_throw b _

/-! ### Whole schemas -/

/-- Placing the root leaves a stocked construction with the root as its last node. -/
theorem placeRoot_keepsAt (h : MeetsScalars p s s.lookups.length s.root) :
    KeepsAt p (fun n id => id + 1 = n) {} (placeTerm (placeEntry s s.lookups.length) s.root) := by
  generalize s.root = root at h
  obtain ⟨optional, index | ⟨type, declared⟩⟩ := root
  · intro id b hrun
    obtain ⟨hb, hle, -, hlast⟩ := placeEntry_keepsAt s s.lookups.length index optional
      (meetsScalars_reference.mp h) {} Building.stocked_empty id b hrun
    exact ⟨hb, hle, hlast rfl⟩
  · exact placeNode_keepsAt Building.stocked_empty (.scalar (meetsScalars_scalar.mp h))

/-- What compiling gives is what placing the root leaves behind. -/
theorem exists_run_of_compile {a : Arena} (h : compile s = .ok a) :
    ∃ b : Building, (placeTerm (placeEntry s s.lookups.length) s.root).run {} = .ok (a.root, b) ∧
      b.nodes = a.nodes := by
  have hcompile : compile s = ((placeTerm (placeEntry s s.lookups.length) s.root).run {}).bind
      fun q => .ok ⟨q.2.nodes, q.1⟩ := rfl
  rw [hcompile] at h
  cases hrun : (placeTerm (placeEntry s s.lookups.length) s.root).run {} with
  | error e =>
    rw [hrun] at h
    cases h
  | ok q =>
    rw [hrun] at h
    cases h
    exact ⟨q.2, rfl, rfl⟩

/-- **Every node of a compiled arena fits its place**, with the property that holds of
the scalars met below the root. -/
theorem fits_of_compile {a : Arena} (h : compile s = .ok a)
    (hmeets : MeetsScalars p s s.lookups.length s.root) {id : Nat} {node : Node}
    (hnode : a.nodes[id]? = some node) : node.Fits p id := by
  obtain ⟨b, hrun, hnodes⟩ := exists_run_of_compile h
  obtain ⟨hb, -, -⟩ := placeRoot_keepsAt hmeets a.root b hrun
  exact hb.nodes id node (hnodes ▸ hnode)

/-- **The root of a compiled arena is its last node.** -/
theorem root_of_compile {a : Arena} (h : compile s = .ok a) : a.root + 1 = a.nodes.length := by
  obtain ⟨b, hrun, hnodes⟩ := exists_run_of_compile h
  have hmeets : MeetsScalars (fun _ _ _ => True) s s.lookups.length s.root :=
    meetsScalars_of_forall (fun _ _ _ => trivial) s _ _
  obtain ⟨-, -, hroot⟩ := placeRoot_keepsAt hmeets a.root b hrun
  exact hnodes ▸ hroot

end TerseSchema
