import Mathlib.Algebra.BigOperators.Group.Finset.Sigma
import Mathlib.Algebra.GroupWithZero.Nat
import Mathlib.Algebra.Order.BigOperators.Group.Finset
import Mathlib.Data.List.ProdSigma
import TerseSchema.Proofs.Construction

/-!
# The arena grows with the table

Following every reference anew, a table of which each entry refers twice to the one below
it has twice as many nodes with every entry.  Its arena has one more: an entry is placed
once for each optional mark, whoever refers to it, and makes room for a node of its own
and one for each of its parts.  The nodes never take more than the room that the
remembered entries make, and the root.

## Main definitions

* `partCount`, `FlatSchema.room` — the parts of a body, and the nodes that it may take.
* `Building.Accounted` — every group is remembered, under a key of its own.
* `Arena.groups` — the arrays and objects of an arena.

## Main results

* `ledger_accounted` — no step takes more than the room there is.
* `arena_is_linear` — **the arena grows with the table, and not with the paths in it.**
-/

namespace TerseSchema

/-! ### Room -/

/-- The number of comma-separated parts of a body. -/
def partCount (body : List Char) : Nat := ((Group.inner body).splitOn ',').length

/-- The nodes that an entry may take for one mark: that of its group, and one for each
part of its body. -/
def FlatSchema.room (s : FlatSchema) (index : Nat) : Nat := 1 + partCount (s.lookups.getD index [])

/-- An object skips its empty entries, and an array has a term for each part. -/
theorem length_terms_le (literals : List (List Char)) (body : List Char) :
    (Group.parse literals body).terms.length ≤ partCount body := by
  rw [Group.parse, partCount]
  split
  · exact Nat.le_of_eq (List.length_map _)
  · rw [Group.terms, List.length_map, List.length_map]
    exact List.length_filter_le _ _

/-- The nodes that a term takes beyond the room of the entries: a scalar takes one. -/
def Term.nodeCount (t : Term) : Nat :=
  match t.content with
  | .scalar _ _ => 1
  | .reference _ => 0

theorem nodeCount_le (ts : List Term) : ts.foldr (fun t n => t.nodeCount + n) 0 ≤ ts.length := by
  induction ts with
  | nil => exact Nat.le_refl _
  | cons t ts ih =>
    have hone : t.nodeCount ≤ 1 := by
      rw [Term.nodeCount]
      split <;> omega
    rw [List.foldr_cons, List.length_cons]
    omega

namespace Building

/-- The room that the remembered entries make. -/
def room (s : FlatSchema) (b : Building) : Nat := (b.placed.map fun e => s.room e.1.1).sum

/-- Every group is remembered, and what is remembered are entries of the table, each of
them with a mark once. -/
structure Accounted (s : FlatSchema) (b : Building) : Prop where
  keys : (b.placed.map Prod.fst).Nodup
  below : ∀ e ∈ b.placed, e.1.1 < s.lookups.length
  groups : ∀ (id : Nat) (node : Node), b.nodes[id]? = some node → node.isGroup →
    ∃ key, b.placed.lookup key = some id

/-- From one construction to another, the nodes take the room that is made, and `extra`
nodes more. -/
def Takes (s : FlatSchema) (extra : Nat) (b b' : Building) : Prop :=
  b'.nodes.length + b.room s ≤ b.nodes.length + b'.room s + extra

end Building

open Building

variable {s : FlatSchema}

theorem notMem_keys_of_lookup {b : Building} {key : Nat × Bool}
    (h : b.placed.lookup key = none) : key ∉ b.placed.map Prod.fst := by
  rw [List.mem_map]
  rintro ⟨e, he, rfl⟩
  have hne := List.lookup_eq_none_iff.mp h e he
  simp at hne

/-- The node that stands behind all others is the new one. -/
theorem getElem?_push {nodes : List Node} {node other : Node} {id : Nat}
    (h : (nodes ++ [node])[id]? = some other) :
    nodes[id]? = some other ∨ id = nodes.length ∧ other = node := by
  rcases Nat.lt_trichotomy id nodes.length with hlt | rfl | hgt
  · rw [List.getElem?_append_left hlt] at h
    exact .inl h
  · rw [List.getElem?_append_right (Nat.le_refl _), Nat.sub_self] at h
    exact .inr ⟨rfl, (Option.some.inj h).symm⟩
  · have hlength := (List.getElem?_eq_some_iff.mp h).1
    rw [List.length_append, List.length_singleton] at hlength
    omega

theorem Building.Accounted.push {b : Building} (hb : b.Accounted s) {node : Node}
    (h : node.isGroup = false) : (b.push node).Accounted s := by
  refine ⟨hb.keys, hb.below, fun id other hid hother => ?_⟩
  rcases getElem?_push hid with hid | ⟨-, rfl⟩
  · exact hb.groups id other hid hother
  · rw [h] at hother
    cases hother

theorem Building.Accounted.enter {b : Building} (hb : b.Accounted s) {index : Nat} {optional : Bool}
    (hindex : index < s.lookups.length) (h : b.placed.lookup (index, optional) = none)
    (node : Node) : (b.enter (index, optional) node).Accounted s := by
  refine ⟨?_, ?_, fun id other hid hother => ?_⟩
  · exact List.nodup_cons.mpr ⟨notMem_keys_of_lookup h, hb.keys⟩
  · exact List.forall_mem_cons.mpr ⟨hindex, hb.below⟩
  · rcases getElem?_push hid with hid | ⟨rfl, -⟩
    · obtain ⟨key, hkey⟩ := hb.groups id other hid hother
      have hne : (key == (index, optional)) = false := by
        rw [beq_eq_false_iff_ne]
        rintro rfl
        cases h.symm.trans hkey
      refine ⟨key, ?_⟩
      rw [Building.enter, List.lookup_cons, hne]
      exact hkey
    · exact ⟨(index, optional), List.lookup_cons_self⟩

theorem Building.accounted_empty (s : FlatSchema) : Building.Accounted s {} :=
  ⟨List.nodup_nil, List.forall_mem_nil _, nofun⟩

/-- What is remembered is an entry of the table. -/
theorem Building.Accounted.lt {b : Building} (hb : b.Accounted s) {key : Nat × Bool} {id : Nat}
    (h : b.placed.lookup key = some id) : key.1 < s.lookups.length := by
  obtain ⟨before, after, hplaced, -⟩ := List.lookup_eq_some_iff.mp h
  refine hb.below (key, id) ?_
  rw [hplaced]
  exact List.mem_append_right _ List.mem_cons_self

/-- **No step takes more than the room there is**: a scalar takes one node, and an entry
none, as it makes room for itself and its parts. -/
theorem ledger_accounted (s : FlatSchema) :
    Ledger s (Accounted s) (Takes s) 0 (· + ·) fun _ t => t.nodeCount where
  refl b := Nat.le_refl _
  trans m m' b b' b'' h h' := by
    unfold Takes at *
    omega
  scalar bound optional type declared b hb := by
    refine ⟨hb.push rfl, ?_⟩
    have hroom : (b.push (.scalar optional type declared)).room s = b.room s := rfl
    rw [Takes, hroom, Building.push, List.length_append]
    simp only [Term.nodeCount, List.length_singleton]
    omega
  found bound index optional id b _ _ _ := Nat.le_refl _
  enter bound index optional b b' node _ hindex hb' hnone _ hmove := by
    refine ⟨hb'.enter hindex hnone node, ?_⟩
    have hroom : (b'.enter (index, optional) node).room s = s.room index + b'.room s := rfl
    have hterms : (s.group index).terms.length ≤ partCount (s.lookups.getD index []) :=
      length_terms_le s.literals _
    have hcount := nodeCount_le (s.group index).terms
    rw [Takes] at hmove ⊢
    rw [hroom, FlatSchema.room, Building.enter, List.length_append]
    simp only [Term.nodeCount, List.length_singleton]
    omega

/-! ### Counting -/

/-- A list is no longer than one that it is mapped to, each of its members elsewhere. -/
theorem length_le_of_injOn {α β : Type} {xs : List α} {ys : List β} {f : α → β} (hxs : xs.Nodup)
    (hmem : ∀ x ∈ xs, f x ∈ ys) (hinj : ∀ x ∈ xs, ∀ x' ∈ xs, f x = f x' → x = x') :
    xs.length ≤ ys.length := by
  have hnodup : (xs.map f).Nodup := List.Nodup.map_on hinj hxs
  have hsub : xs.map f ⊆ ys := fun y hy => by
    obtain ⟨x, hx, rfl⟩ := List.mem_map.mp hy
    exact hmem x hx
  rw [← List.length_map f]
  exact (hnodup.subperm hsub).length_le

/-- The sum over the entries of a table, by their numbers. -/
theorem sum_range_getD (bodies : List (List Char)) (f : List Char → Nat) :
    ∑ index ∈ Finset.range bodies.length, f (bodies.getD index []) = (bodies.map f).sum := by
  induction bodies with
  | nil => rfl
  | cons body bodies ih =>
    rw [List.length_cons, Finset.sum_range_succ', List.map_cons, List.sum_cons, ← ih, Nat.add_comm]
    rfl

/-- **The remembered entries make room twice at most for each entry of the table.** -/
theorem Building.Accounted.room_le {b : Building} (hb : b.Accounted s) :
    b.room s ≤ (s.lookups.map fun body => 2 * (1 + partCount body)).sum := by
  have hsub : (b.placed.map Prod.fst).toFinset ⊆
      Finset.range s.lookups.length ×ˢ (Finset.univ : Finset Bool) := by
    intro key hkey
    obtain ⟨e, he, rfl⟩ := List.mem_map.mp (List.mem_toFinset.mp hkey)
    exact Finset.mem_product.mpr ⟨Finset.mem_range.mpr (hb.below e he), Finset.mem_univ _⟩
  calc b.room s = ((b.placed.map Prod.fst).map fun key => s.room key.1).sum := by
        rw [Building.room, List.map_map]
        rfl
    _ = ∑ key ∈ (b.placed.map Prod.fst).toFinset, s.room key.1 := (List.sum_toFinset _ hb.keys).symm
    _ ≤ ∑ key ∈ Finset.range s.lookups.length ×ˢ (Finset.univ : Finset Bool), s.room key.1 :=
        Finset.sum_le_sum_of_subset hsub
    _ = ∑ index ∈ Finset.range s.lookups.length, 2 * s.room index := by
        rw [Finset.sum_product]
        refine Finset.sum_congr rfl fun index _ => ?_
        exact Finset.sum_const_nat fun _ _ => rfl
    _ = (s.lookups.map fun body => 2 * (1 + partCount body)).sum :=
        sum_range_getD s.lookups fun body => 2 * (1 + partCount body)

/-! ### Whole arenas -/

/-- The arrays and objects of an arena, by their places. -/
def Arena.groups (a : Arena) : List Nat :=
  (List.range a.nodes.length).filter fun id => a.nodes[id]?.any Node.isGroup

theorem Arena.mem_groups {a : Arena} {id : Nat} :
    id ∈ a.groups ↔ ∃ node, a.nodes[id]? = some node ∧ node.isGroup := by
  rw [Arena.groups, List.mem_filter, List.mem_range, Option.any_eq_true]
  constructor
  · exact fun h => h.2
  · rintro ⟨node, hid, hnode⟩
    exact ⟨(List.getElem?_eq_some_iff.mp hid).1, node, hid, hnode⟩

theorem Arena.nodup_groups (a : Arena) : a.groups.Nodup := List.nodup_range.filter _

/-- What is remembered once the root is placed denotes the trees of the entries. -/
theorem Building.sound_of_run {b : Building} {id : Nat}
    (h : (placeTerm (placeEntry s s.lookups.length) s.root).run {} = .ok (id, b)) : b.Sound s := by
  have hfollows := placeTerm_follows (placeEntry_follows s s.lookups.length) s.root {}
    (Building.sound_empty s)
  unfold FollowsAt at hfollows
  split at hfollows
  · cases h.symm.trans hfollows
  · obtain ⟨id', b', hrun, hsound, -⟩ := hfollows
    cases h.symm.trans hrun
    exact hsound

/-- Every array and object of an arena is that of an entry and a mark, and no two are the
same one's. -/
theorem exists_source {a : Arena} (h : compile s = .ok a) : ∃ source : Nat → Nat × Bool,
    (∀ id ∈ a.groups, (source id).1 < s.lookups.length ∧ ∃ t, a.trees[id]? = some t ∧
      entryTree s s.lookups.length (source id).1 (source id).2 = .ok t) ∧
    ∀ id ∈ a.groups, ∀ id' ∈ a.groups, source id = source id' → id = id' := by
  obtain ⟨b, hrun, hnodes, hb, -⟩ := (ledger_accounted s).compile (accounted_empty s) h
  -- the key that a group is remembered under
  have hkey : ∀ id, ∃ key, id ∈ a.groups → b.placed.lookup key = some id := by
    intro id
    by_cases hid : id ∈ a.groups
    · obtain ⟨node, hnode, hgroup⟩ := Arena.mem_groups.mp hid
      obtain ⟨key, hplaced⟩ := hb.groups id node (hnodes ▸ hnode) hgroup
      exact ⟨key, fun _ => hplaced⟩
    · exact ⟨(0, false), fun hmem => absurd hmem hid⟩
  choose source hsource using hkey
  refine ⟨source, fun id hid => ?_, fun id hid id' hid' heq => ?_⟩
  · have hbelow : (source id).1 < s.lookups.length := hb.lt (hsource id hid)
    obtain ⟨t, ht, hdenotes⟩ := sound_of_run hrun _ _ id (hsource id hid)
    refine ⟨hbelow, t, ?_, ?_⟩
    · rw [Arena.trees_eq, ← hnodes]
      exact hdenotes
    · rw [entryTree_eq, if_pos hbelow, ← ht, entryTree_eq, if_pos (Nat.lt_succ_self _)]
  · have hlookup := hsource id' hid'
    rw [← heq, hsource id hid] at hlookup
    exact Option.some.inj hlookup

/-- All nodes together are no more than the root, and the room of all entries with both
marks. -/
theorem length_nodes_le {a : Arena} (h : compile s = .ok a) :
    a.nodes.length ≤ 1 + (s.lookups.map fun body => 2 * (1 + partCount body)).sum := by
  obtain ⟨b, -, hnodes, hb, htakes⟩ := (ledger_accounted s).compile (accounted_empty s) h
  have hroom := hb.room_le
  have hroot := nodeCount_le [s.root]
  rw [Building.Takes, hnodes] at htakes
  simp only [List.foldr_cons, List.foldr_nil, List.length_singleton, List.length_nil]
    at hroot htakes
  omega

/-- **The arena grows with the table, and not with the paths in it.**  However often its
entries refer to one another, every array and object is that of an entry and a mark, and
no two are the same one's: at most two belong to one entry.  All nodes together are no
more than the root, and two for each entry and each of its parts. -/
theorem arena_is_linear {s : FlatSchema} {a : Arena} (h : compile s = .ok a) :
    (∃ source : Nat → Nat × Bool,
      (∀ id ∈ a.groups, (source id).1 < s.lookups.length ∧ ∃ t, a.trees[id]? = some t ∧
        entryTree s s.lookups.length (source id).1 (source id).2 = .ok t) ∧
      (∀ id ∈ a.groups, ∀ id' ∈ a.groups, source id = source id' → id = id') ∧
      ∀ index, (a.groups.filter fun id => (source id).1 = index).length ≤ 2) ∧
    a.groups.length ≤ 2 * s.lookups.length ∧
    a.nodes.length ≤ 1 + (s.lookups.map fun body => 2 * (1 + partCount body)).sum := by
  obtain ⟨source, hsource, hinj⟩ := exists_source h
  refine ⟨⟨source, hsource, hinj, fun index => ?_⟩, ?_, length_nodes_le h⟩
  · have hmarks : ∀ id ∈ a.groups.filter fun id => (source id).1 = index,
        source id ∈ [(index, false), (index, true)] := by
      intro id hid
      have hindex : (source id).1 = index := of_decide_eq_true (List.mem_filter.mp hid).2
      rw [← hindex]
      cases hmark : (source id).2 <;> simp [← hmark]
    refine length_le_of_injOn (a.nodup_groups.filter _) hmarks fun id hid id' hid' => ?_
    exact hinj id (List.mem_filter.mp hid).1 id' (List.mem_filter.mp hid').1
  · have hmem : ∀ id ∈ a.groups, source id ∈ List.range s.lookups.length ×ˢ [false, true] := by
      intro id hid
      refine List.mem_product.mpr ⟨List.mem_range.mpr (hsource id hid).1, ?_⟩
      cases (source id).2 <;> simp
    have hle := length_le_of_injOn a.nodup_groups hmem hinj
    rw [List.length_product, List.length_range, Nat.mul_comm] at hle
    exact hle

/-- A table of which the entries refer twice to the one below, the second entry with both
marks. -/
def doublingTable : FlatSchema :=
  ⟨"3".toList, ["[i]".toList, "[0,0]".toList, "[1,?1]".toList, "\x7ba:2,b:2\x7d".toList], []⟩

theorem arena_is_linear_doublingTable : ∃ a, compile doublingTable = .ok a ∧
    a.groups = [1, 2, 3, 4, 5] ∧
    (∃ source : Nat → Nat × Bool,
      (∀ id ∈ a.groups, ∀ id' ∈ a.groups, source id = source id' → id = id') ∧
      ∀ index, (a.groups.filter fun id => (source id).1 = index).length ≤ 2) ∧
    a.groups.length ≤ 8 ∧ a.nodes.length ≤ 23 := by
  have h : compile doublingTable = .ok ⟨[.scalar false "i" none, .array false [0],
      .array false [1, 1], .array true [1, 1], .array false [2, 3],
      .object false [("a", 4), ("b", 4)] none], 5⟩ := by
    decide +kernel
  obtain ⟨⟨source, -, hinj, htwo⟩, hgroups, hnodes⟩ := arena_is_linear h
  exact ⟨_, h, by decide, ⟨source, hinj, htwo⟩, hgroups, hnodes⟩

end TerseSchema
