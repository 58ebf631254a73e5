import TerseSchema.Proofs.Descent
import TerseSchema.Proofs.Nodes

/-!
# What construction adds

Placing a term adds to a construction: nodes, and entries that are remembered.  How much
of something is added by a whole schema is a sum over the terms that are met, and the
recursion over them is always the same.  A `Survey` lists what has to be known of a single
step: of a scalar that is placed, of an entry that is remembered, and of a group that is
placed once its terms are.  It may also tell of each term where its node is; a `Ledger` does
not.

## Main definitions

* `Node.isGroup` — whether a node is an array or an object.
* `Building.push`, `Building.enter` — one more node, and one more entry.
* `Group.HasNode` — the node of a group, by the nodes of its terms.
* `Survey` — an invariant, an amount by which each step moves, and what is told of the node.
* `Ledger` — a survey that tells nothing of the nodes.

## Main results

* `Survey.placeTerm` — **a term moves a construction by the amount of the term**, to a node of
  which is told what is to be told of the term.
* `Ledger.compile` — a schema moves the empty construction by the amount of its root.
-/

namespace TerseSchema

/-- Whether a node is an array or an object. -/
def Node.isGroup : Node → Bool
  | .scalar _ _ _ => false
  | .array _ _ => true
  | .object _ _ _ => true

/-- The node of a group has the nodes of the terms, in order, where `rel` tells which.  The
entries of an object have one each, whether or not a later one takes the name. -/
def Group.HasNode (rel : Term → Nat → Prop) (optional : Bool) : Group → Node → Prop
  | .array parts, node => ∃ ids, node = .array optional ids ∧ List.Forall₂ rel parts ids
  | .object entries, node => ∃ placed,
      node = .object optional (declaredFields placed) (wildcard? placed) ∧
      List.Forall₂ (fun e e' => e'.1 = e.1 ∧ rel e.2 e'.2) entries placed

namespace Group.HasNode

variable {rel rel' : Term → Nat → Prop} {optional : Bool} {g : Group} {node : Node}

theorem isGroup (h : g.HasNode rel optional node) : node.isGroup = true := by
  cases g with
  | array parts =>
    obtain ⟨ids, rfl, -⟩ := h
    rfl
  | object entries =>
    obtain ⟨placed, rfl, -⟩ := h
    rfl

theorem imp (himp : ∀ t id, rel t id → rel' t id) (h : g.HasNode rel optional node) :
    g.HasNode rel' optional node := by
  cases g with
  | array parts =>
    obtain ⟨ids, hnode, hids⟩ := h
    exact ⟨ids, hnode, hids.imp himp⟩
  | object entries =>
    obtain ⟨placed, hnode, hplaced⟩ := h
    exact ⟨placed, hnode, hplaced.imp fun e e' he => ⟨he.1, himp e.2 e'.2 he.2⟩⟩

/-- Every term of a group has its node. -/
theorem exists_rel (h : g.HasNode rel optional node) {t : Term} (ht : t ∈ g.terms) :
    ∃ id, rel t id := by
  cases g with
  | array parts =>
    obtain ⟨ids, -, hids⟩ := h
    have hall : ∀ t ∈ parts, ∃ id, rel t id :=
      forall_mem_right hids.flip fun id _ hid => ⟨id, hid⟩
    exact hall t ht
  | object entries =>
    obtain ⟨placed, -, hplaced⟩ := h
    obtain ⟨e, he, rfl⟩ := List.mem_map.mp ht
    have hall : ∀ e ∈ entries, ∃ id, rel e.2 id :=
      forall_mem_right hplaced.flip fun e' _ he => ⟨e'.2, he.2⟩
    exact hall e he

end Group.HasNode

namespace Building

/-- A construction with one more node. -/
def push (b : Building) (node : Node) : Building := { b with nodes := b.nodes ++ [node] }

/-- A construction with one more node, which is remembered. -/
def enter (b : Building) (key : Nat × Bool) (node : Node) : Building :=
  ⟨b.nodes ++ [node], (key, b.nodes.length) :: b.placed⟩

/-- What is remembered of the entries from a bound on is the same. -/
def SameAbove (bound : Nat) (b b' : Building) : Prop :=
  ∀ key : Nat × Bool, bound ≤ key.1 → b'.placed.lookup key = b.placed.lookup key

theorem SameAbove.trans {bound : Nat} {b b' b'' : Building} (h : SameAbove bound b b')
    (h' : SameAbove bound b' b'') : SameAbove bound b b'' :=
  fun key hkey => (h' key hkey).trans (h key hkey)

theorem sameAbove_enter {bound : Nat} {b b' : Building} {index : Nat} (h : index < bound)
    (hb : SameAbove index b b') (optional : Bool) (node : Node) :
    SameAbove bound b (b'.enter (index, optional) node) := by
  intro key hkey
  have hne : (key == (index, optional)) = false := by
    rw [beq_eq_false_iff_ne]
    rintro rfl
    exact Nat.not_le_of_lt h hkey
  rw [enter, List.lookup_cons, hne]
  exact hb key (Nat.le_trans (Nat.le_of_lt h) hkey)

end Building

/-- What has to be known of single steps, for an invariant of the construction, an amount by
which each term moves it, and what is told of the node of a term. -/
structure Survey {M : Type} (s : FlatSchema) (inv : Building → Prop)
    (move : M → Building → Building → Prop) (zero : M) (add : M → M → M)
    (amount : Nat → Term → M) (rel : Term → Building → Nat → Prop) : Prop where
  refl : ∀ b, move zero b b
  trans : ∀ m m' b b' b'', move m b b' → move m' b' b'' → move (add m m') b b''
  /-- What is told of a node holds on along every move. -/
  mono : ∀ t m {b b' : Building} {id : Nat}, move m b b' → rel t b id → rel t b' id
  /-- A scalar is placed. -/
  scalar : ∀ bound optional type declared b, inv b →
    inv (b.push (.scalar optional type declared)) ∧
      move (amount bound ⟨optional, .scalar type declared⟩) b
        (b.push (.scalar optional type declared)) ∧
      rel ⟨optional, .scalar type declared⟩ (b.push (.scalar optional type declared))
        b.nodes.length
  /-- An entry is found in memory. -/
  found : ∀ bound index optional id b, index < bound → inv b →
    b.placed.lookup (index, optional) = some id →
      move (amount bound ⟨optional, .reference index⟩) b b ∧
      rel ⟨optional, .reference index⟩ b id
  /-- A group is placed behind its terms, and remembered. -/
  enter : ∀ bound index optional b b' node, index < bound → index < s.lookups.length → inv b' →
    b'.placed.lookup (index, optional) = none →
    (s.group index).HasNode (rel · b' ·) optional node →
    move ((s.group index).terms.foldr (fun t => add (amount index t)) zero) b b' →
    inv (b'.enter (index, optional) node) ∧
      move (amount bound ⟨optional, .reference index⟩) b (b'.enter (index, optional) node) ∧
      rel ⟨optional, .reference index⟩ (b'.enter (index, optional) node) b'.nodes.length

/-- What has to be known of single steps, for an invariant of the construction and an
amount by which each term moves it. -/
structure Ledger {M : Type} (s : FlatSchema) (inv : Building → Prop)
    (move : M → Building → Building → Prop) (zero : M) (add : M → M → M)
    (amount : Nat → Term → M) : Prop where
  refl : ∀ b, move zero b b
  trans : ∀ m m' b b' b'', move m b b' → move m' b' b'' → move (add m m') b b''
  /-- A scalar is placed. -/
  scalar : ∀ bound optional type declared b, inv b →
    inv (b.push (.scalar optional type declared)) ∧
      move (amount bound ⟨optional, .scalar type declared⟩) b
        (b.push (.scalar optional type declared))
  /-- An entry is found in memory. -/
  found : ∀ bound index optional id b, index < bound → inv b →
    b.placed.lookup (index, optional) = some id →
      move (amount bound ⟨optional, .reference index⟩) b b
  /-- A group is placed behind its terms, and remembered. -/
  enter : ∀ bound index optional b b' node, index < bound → index < s.lookups.length → inv b' →
    b'.placed.lookup (index, optional) = none → node.isGroup →
    move ((s.group index).terms.foldr (fun t => add (amount index t)) zero) b b' →
    inv (b'.enter (index, optional) node) ∧
      move (amount bound ⟨optional, .reference index⟩) b (b'.enter (index, optional) node)

section
variable {M : Type} {s : FlatSchema} {inv : Building → Prop}

/-- The node of a group moves by what its terms move, and has their nodes. -/
theorem groupNode_moves (move : M → Building → Building → Prop) (zero : M) (add : M → M → M)
    (refl : ∀ b, move zero b b)
    (trans : ∀ m m' b b' b'', move m b b' → move m' b' b'' → move (add m m') b b'')
    {amount : Term → M} (rel : Term → Building → Nat → Prop)
    (hmono : ∀ t m {b b' : Building} {id : Nat}, move m b b' → rel t b id → rel t b' id)
    {place : Term → Build Nat} {g : Group}
    (h : ∀ t ∈ g.terms, ∀ b, inv b → MovesAt inv (move (amount t)) (rel t) b (place t))
    (optional : Bool) : ∀ b, inv b →
      MovesAt inv (move (g.terms.foldr (fun t => add (amount t)) zero))
        (fun b node => g.HasNode (rel · b ·) optional node) b (groupNode place optional g) := by
  intro b hb
  cases g with
  | array parts =>
    have hparts := movesAt_mapM_of move zero add refl trans amount hmono h b hb
    refine hparts.bind_of (fun b b' b'' hmove (e : b' = b'') => e ▸ hmove)
      fun ids b' hb' _ hids => ?_
    intro node b'' hrun
    cases hrun
    exact ⟨hb', rfl, ids, rfl, hids⟩
  | object entries =>
    have hentry : ∀ e ∈ entries, ∀ b, inv b → MovesAt inv (move (amount e.2))
        (fun b (e' : String × Nat) => e'.1 = e.1 ∧ rel e.2 b e'.2) b
        (do return (e.1, ← place e.2)) := by
      intro e he b hb
      refine (h e.2 (List.mem_map_of_mem he) b hb).bind_of
        (fun b b' b'' hmove (e : b' = b'') => e ▸ hmove) fun id b' hb' _ hid => ?_
      intro e' b'' hrun
      cases hrun
      exact ⟨hb', rfl, rfl, hid⟩
    have hentries := movesAt_mapM_of move zero add refl trans (fun e : String × Term => amount e.2)
      (fun e m _ _ _ hmove he => ⟨he.1, hmono e.2 m hmove he.2⟩) hentry b hb
    rw [Group.terms, List.foldr_map]
    refine hentries.bind_of (fun b b' b'' hmove (e : b' = b'') => e ▸ hmove)
      fun placed b' hb' _ hplaced => ?_
    intro node b'' hrun
    cases hrun
    exact ⟨hb', rfl, placed, rfl, hplaced⟩

/-- A group that is placed and remembered enters the construction that its terms leave, behind
all its nodes. -/
theorem exists_run_group {group : Build Node} {index : Nat} {optional : Bool} {b b' : Building}
    {id : Nat} (h : (group >>= fun node => placeNode node >>= remember index optional).run b =
      .ok (id, b')) :
    ∃ node mid, group.run b = .ok (node, mid) ∧ id = mid.nodes.length ∧
      b' = mid.enter (index, optional) node := by
  rw [run_bind_eq] at h
  cases hgroup : group.run b with
  | error e =>
    rw [hgroup] at h
    cases h
  | ok q =>
    rw [hgroup] at h
    cases h
    exact ⟨q.1, q.2, rfl, rfl, rfl⟩

/-- **A term moves a construction by the amount of the term**, to a node of which is told what
is to be told of the term, and leaves alone what is remembered of the entries that it may not
refer to. -/
theorem Survey.placeTerm {move : M → Building → Building → Prop} {zero : M} {add : M → M → M}
    {amount : Nat → Term → M} {rel : Term → Building → Nat → Prop}
    (h : Survey s inv move zero add amount rel) (bound : Nat)
    (hbound : bound ≤ s.lookups.length) : ∀ t b, inv b →
      MovesAt inv (fun b b' => move (amount bound t) b b' ∧ Building.SameAbove bound b b')
        (rel t) b (TerseSchema.placeTerm (placeEntry s bound) t) := by
  -- the terms of an entry refer to lower ones only
  induction bound using Nat.strongRecOn with
  | _ bound ih =>
    rintro ⟨optional, index | ⟨type, declared⟩⟩ b hb id b' hrun
    · change (placeEntry s bound index optional).run b = _ at hrun
      by_cases hlt : index < bound
      · rw [placeEntry_of_lt hlt, run_placeEntry_self] at hrun
        cases hl : b.placed.lookup (index, optional) with
        | some id' =>
          rw [hl] at hrun
          cases hrun
          obtain ⟨hmove, hrel⟩ := h.found bound index optional id b hlt hb hl
          exact ⟨hb, ⟨hmove, fun _ _ => rfl⟩, hrel⟩
        | none =>
          rw [hl] at hrun
          have hindex : index < s.lookups.length := Nat.lt_of_lt_of_le hlt hbound
          obtain ⟨node, mid, hgroup, rfl, rfl⟩ := exists_run_group hrun
          -- the terms leave alone what is remembered of the entry itself
          obtain ⟨hmid, ⟨hmove, hsame⟩, hnode⟩ := groupNode_moves
            (fun m b b' => move m b b' ∧ Building.SameAbove index b b') zero add
            (fun b => ⟨h.refl b, fun _ _ => rfl⟩)
            (fun m m' b b' b'' hm hm' => ⟨h.trans m m' b b' b'' hm.1 hm'.1, hm.2.trans hm'.2⟩)
            rel (fun t m _ _ _ hm => h.mono t m hm.1)
            (fun t _ => ih index hlt (Nat.le_of_lt hindex) t) optional b hb node mid hgroup
          have hnone := (hsame (index, optional) (Nat.le_refl index)).trans hl
          obtain ⟨hb', hmove', hrel⟩ :=
            h.enter bound index optional b mid node hlt hindex hmid hnone hnode hmove
          exact ⟨hb', ⟨hmove', Building.sameAbove_enter hlt hsame optional node⟩, hrel⟩
      · rw [placeEntry_of_le (Nat.le_of_not_lt hlt)] at hrun
        cases hrun
    · cases hrun
      obtain ⟨hb', hmove, hrel⟩ := h.scalar bound optional type declared b hb
      exact ⟨hb', ⟨hmove, fun _ _ => rfl⟩, hrel⟩

/-- **A schema moves the empty construction by the amount of its root**, to a node of which is
told what is to be told of the root. -/
theorem Survey.compile {move : M → Building → Building → Prop} {zero : M} {add : M → M → M}
    {amount : Nat → Term → M} {rel : Term → Building → Nat → Prop}
    (h : Survey s inv move zero add amount rel) (hempty : inv {}) {a : Arena}
    (ha : TerseSchema.compile s = .ok a) :
    ∃ b : Building, (TerseSchema.placeTerm (placeEntry s s.lookups.length) s.root).run {} =
        .ok (a.root, b) ∧ b.nodes = a.nodes ∧ inv b ∧
      move (amount s.lookups.length s.root) {} b ∧ rel s.root b a.root := by
  obtain ⟨b, hrun, hnodes⟩ := exists_run_of_compile ha
  obtain ⟨hb, ⟨hmove, -⟩, hrel⟩ :=
    h.placeTerm s.lookups.length (Nat.le_refl _) s.root {} hempty a.root b hrun
  exact ⟨b, hrun, hnodes, hb, hmove, hrel⟩

/-- A ledger is a survey that tells nothing of the nodes. -/
theorem Ledger.survey {move : M → Building → Building → Prop} {zero : M} {add : M → M → M}
    {amount : Nat → Term → M} (h : Ledger s inv move zero add amount) :
    Survey s inv move zero add amount fun _ _ _ => True where
  refl := h.refl
  trans := h.trans
  mono _ _ _ _ _ _ _ := trivial
  scalar bound optional type declared b hb := by
    obtain ⟨hb', hmove⟩ := h.scalar bound optional type declared b hb
    exact ⟨hb', hmove, trivial⟩
  found bound index optional id b hlt hb hl :=
    ⟨h.found bound index optional id b hlt hb hl, trivial⟩
  enter bound index optional b b' node hlt hindex hb' hnone hnode hmove := by
    obtain ⟨hb'', hmove'⟩ :=
      h.enter bound index optional b b' node hlt hindex hb' hnone hnode.isGroup hmove
    exact ⟨hb'', hmove', trivial⟩

/-- A schema moves the empty construction by the amount of its root. -/
theorem Ledger.compile {move : M → Building → Building → Prop} {zero : M} {add : M → M → M}
    {amount : Nat → Term → M} (h : Ledger s inv move zero add amount) (hempty : inv {}) {a : Arena}
    (ha : TerseSchema.compile s = .ok a) :
    ∃ b : Building, (TerseSchema.placeTerm (placeEntry s s.lookups.length) s.root).run {} =
        .ok (a.root, b) ∧ b.nodes = a.nodes ∧ inv b ∧
      move (amount s.lookups.length s.root) {} b := by
  obtain ⟨b, hrun, hnodes, hb, hmove, -⟩ := h.survey.compile hempty ha
  exact ⟨b, hrun, hnodes, hb, hmove⟩

end

end TerseSchema
