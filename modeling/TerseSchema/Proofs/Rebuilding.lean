import TerseSchema.Proofs.Conformance
import TerseSchema.Proofs.Inference
import TerseSchema.Proofs.Repair
import TerseSchema.Session

/-!
# An example is rebuilt by its own schema

Shaping under the schema that is read off an example rebuilds the example, fields in
the same order.  Nothing is violated where a part of the example meets its own schema,
so that the scalars are kept; what takes an argument is that nothing is added and
nothing is left out.

## Main definitions

* `Value.Explicit` — every key can be written, and no array is empty.
* `rebuilder` — shaping with the builtin types, absent optional parts left out.

## Main results

* `Value.fieldsOf_draft` — an explicit object declares each of its fields, in order.
* `Position.Exemplified.shaped` — **what meets its own schema is built again.**
* `shape_inferSchema` — **an example is shaped into itself by its own schema.**
-/

namespace TerseSchema

/-- An example whose schema says all of it: every key can be written, and every array
has an item to be described by. -/
inductive Value.Explicit : Value → Prop
  | null : Explicit .null
  | bool (b : Bool) : Explicit (.bool b)
  | num (n : Number) : Explicit (.num n)
  | str (s : String) : Explicit (.str s)
  | arr {items : List Value} : items ≠ [] → (∀ v ∈ items, Explicit v) → Explicit (.arr items)
  | obj {fields : List (String × Value)} : (∀ f ∈ fields, isPlainKey f.1 = true) →
      (∀ f ∈ fields, Explicit f.2) → Explicit (.obj fields)

/-! ### The schema of an explicit object -/

/-- **An explicit object declares each of its fields**, in order and with its own
schema. -/
theorem Value.fieldsOf_draft {fields : List (String × Value)} (hn : (Table.names fields).Nodup)
    (hplain : ∀ f ∈ fields, isPlainKey f.1 = true) :
    fieldsOf (Draft.entryTrees (draftFields fields)) = fields.map (Prod.map id (·.draft.tree)) := by
  have hwritten : writtenFields fields = fields := List.filter_eq_self.mpr hplain
  have hentries : Draft.entryTrees (draftFields fields) =
      fields.map fun f => (some f.1, f.2.draft.tree) := by
    rw [Draft.entryTrees_eq_map, draftFields_eq_map, hwritten, List.map_map]
    rfl
  have hnames : ∀ e ∈ fields.map fun f => (some f.1, f.2.draft.tree),
      ∀ name ∈ e.1, name ≠ wildcardName := by
    refine List.forall_mem_map.mpr fun f hf => ?_
    rintro name ⟨⟩
    exact (isWord_of_isPlainKey (hplain f hf)).2
  have hdeclared : (fields.map fun f => (some f.1, f.2.draft.tree)).map writtenEntry =
      fields.map (Prod.map id (·.draft.tree)) := by
    rw [List.map_map]
    rfl
  have hmapNames : Table.names (fields.map (Prod.map id (·.draft.tree))) = Table.names fields := by
    rw [Table.names, List.map_map]
    rfl
  have hstar : (fields.map (Prod.map id (·.draft.tree))).filter (·.1 ≠ wildcardName) =
      fields.map (Prod.map id (·.draft.tree)) := by
    refine List.filter_eq_self.mpr (List.forall_mem_map.mpr fun f hf => decide_eq_true ?_)
    exact (isWord_of_isPlainKey (hplain f hf)).2
  rw [hentries, ← declaredFields_eq_fieldsOf hnames, hdeclared, declaredFields, hstar]
  exact Table.ofEntries_of_nodup (hmapNames ▸ hn)

/-! ### Building it again -/

/-- Shaping with the builtin types, absent optional parts left out. -/
def rebuilder (root : Value) (draws : Path → Nat) : Shaper := ⟨.builtin, root, false, draws⟩

namespace Position

variable {root : Value} {draws : Path → Nat} {optional : Bool} {place : Place}

/-- A scalar of an example is kept, since nothing is violated. -/
theorem Exemplified.shaped_scalar {type : String} {declared : Option Default} {v : Value}
    (hq : Exemplified ⟨.scalar optional type declared, place⟩)
    (hmeans : Registry.builtin.Means type) (hp : place.present = some v) :
    (rebuilder root draws).shaped ⟨.scalar optional type declared, place⟩ = v := by
  obtain ⟨-, hshaped⟩ | ⟨hcheck, -⟩ := (rebuilder root draws).shaped_scalar_cases
    Registry.builtin_untyped hmeans optional declared hp
  · exact hshaped
  · obtain ⟨r, hr⟩ := (violated_checked_iff hmeans v _).mpr hcheck
    refine absurd ?_ (hq.notMem_findings root r)
    simp only [findings, hp]
    exact hr

/-- An array that is not empty is as long as its pattern, and gets no item more. -/
theorem shaped_array_of_next {parts : List Tree} {items : List Value} (hparts : parts ≠ [])
    (hp : place.present = some (.arr items)) (hlength : parts.length ≤ items.length)
    (hnext : ∀ {q w}, Next ⟨.array optional parts, place⟩ q → q.place.value = some w →
      (rebuilder root draws).shaped q = w) :
    (rebuilder root draws).shaped ⟨.array optional parts, place⟩ = .arr items := by
  obtain rfl := place.items_of_present hp
  have hpart : ∀ {i t w}, nth parts i = some t → place.items[i]? = some w →
      (rebuilder root draws).shaped ⟨t, place.item i place.items[i]?⟩ = w := by
    intro i t w ht hw
    rw [hw]
    exact hnext (.item hp hw ht) rfl
  obtain ⟨built, hbuilt, hsame⟩ := (rebuilder root draws).forall₂_shaped_array (R := Eq)
    (leavesOut_of_present hp) hparts (Nat.max_eq_left hlength).symm hpart
  rw [List.forall₂_eq_eq_eq] at hsame
  rw [hbuilt, hsame]

/-- An object whose fields are declared in their order gets no field more, and they
stay where they are. -/
theorem shaped_object_of_next {entries : List (String × Value)} {schema : Value → Tree}
    (hn : (Table.names entries).Nodup) (hp : place.present = some (.obj entries))
    (hnext : ∀ {q w}, Next ⟨.object optional (entries.map (Prod.map id schema)) none, place⟩ q →
      q.place.value = some w → (rebuilder root draws).shaped q = w) :
    (rebuilder root draws).shaped
      ⟨.object optional (entries.map (Prod.map id schema)) none, place⟩ = .obj entries := by
  have hl : leavesOut (rebuilder root draws).includeOptional optional place = false :=
    leavesOut_of_present hp
  obtain rfl : place.entries = entries := place.entries_of_present hp
  by_cases hnil : place.entries = []
  · rw [hnil, List.map_nil, (rebuilder root draws).shaped_object_any hl, hnil]
  · have hentries : (rebuilder root draws).shapedEntries
        (place.entries.map (Prod.map id schema)) none place = place.entries := by
      have hfield : ∀ f ∈ place.entries, (rebuilder root draws).shaped
          ⟨schema f.2, place.field f.1 (place.entries.lookup f.1)⟩ = f.2 := fun f hf =>
        hnext (.field hp (List.mem_map.mpr ⟨f, hf, rfl⟩)) (Table.lookup_eq_some_of_mem hn hf)
      rw [Shaper.shapedEntries, Option.toList_none, List.flatMap_nil, List.append_nil,
        List.map_map]
      conv_rhs => rw [← List.map_id place.entries]
      exact List.map_congr_left fun f hf => Prod.ext rfl (hfield f hf)
    have hsome : ¬ (place.entries.map (Prod.map id schema) = [] ∧ (none : Option Tree) = none) :=
      fun h => hnil (List.map_eq_nil_iff.mp h.1)
    rw [(rebuilder root draws).shaped_object hl hsome, hentries, Table.ofEntries_of_nodup hn]

/-- **What meets its own schema is built again.** -/
theorem Exemplified.shaped {q : Position} (hq : q.Exemplified) {v : Value}
    (hv : q.place.value = some v) (hexplicit : v.Explicit) :
    (rebuilder root draws).shaped q = v := by
  induction q using Position.induct generalizing v with
  | h q ih =>
    have hnext : ∀ {q' w}, Next q q' → q'.place.value = some w → w.Explicit →
        (rebuilder root draws).shaped q' = w := fun h hw hexplicit =>
      ih _ h (hq.next h) hw hexplicit
    obtain ⟨v', hv', hschema, hproper, -⟩ := id hq
    obtain rfl : v = v' := Option.some.inj (hv.symm.trans hv')
    obtain ⟨schema, place⟩ := q
    obtain rfl : schema = v.draft.tree := hschema
    have hpresent : v ≠ .null → place.present = some v := Place.present_of_value hv
    cases hexplicit with
    | null =>
      refine (rebuilder root draws).shaped_of_leavesOut (leavesOut_iff.mpr ⟨?_, rfl, rfl⟩)
      exact Place.present_of_null hv
    | bool b => exact hq.shaped_scalar (.inr ⟨_, rfl⟩) (hpresent (by simp))
    | str s => exact hq.shaped_scalar (.inr ⟨_, rfl⟩) (hpresent (by simp))
    | num n =>
      refine hq.shaped_scalar ?_ (hpresent (by simp))
      split
      · exact .inr ⟨_, rfl⟩
      · exact .inr ⟨_, rfl⟩
    | @arr items hne hitems =>
      have hp := hpresent (by simp)
      refine shaped_array_of_next (List.cons_ne_nil _ _) hp ?_ fun {q w} h hw => hnext h hw ?_
      · exact List.length_pos_iff.mpr hne
      · cases h with
        | item hp' hv' _ =>
          obtain rfl := Value.arr.inj (Option.some.inj (hp.symm.trans hp'))
          obtain rfl := Option.some.inj hw
          exact hitems _ (List.mem_of_getElem? hv')
    | @obj fields hplain hfields =>
      have hp := hpresent (by simp)
      have htree : (Value.obj fields).draft.tree =
          .object false (fields.map (Prod.map id (·.draft.tree))) none := by
        rw [Value.draft, Draft.tree, restOf_draft, Value.fieldsOf_draft hproper.nodup hplain]
      rw [htree] at hnext ⊢
      refine shaped_object_of_next hproper.nodup hp fun {q w} h hw => hnext h hw ?_
      cases h with
      | field hp' hf =>
        obtain rfl := Value.obj.inj (Option.some.inj (hp.symm.trans hp'))
        exact hfields _ (Table.mem_of_lookup_eq_some hw)

end Position

/-! ### Whole examples -/

/-- **An example is shaped into itself by its own schema**, fields in the same order.
Every key of the example can be written and no array of it is empty; at every array all
items have the schema of the first one, and no object has two fields of one name.  No
type is registered and no option is set.  The bound is that of the numbers a flat schema
may hold, and no text of an address space of 64 bits is longer. -/
theorem shape_inferSchema {v : Value} (hexplicit : v.Explicit) (huniform : v.Uniform)
    (hproper : v.Proper) (hlength : (inferSchema v).length ≤ pow2 64) (activation : Activation)
    (draws : Path → Nat) :
    (Session.shape { activation } v (inferSchema v) {} draws).answer = .ok v := by
  obtain ⟨s, a, hs, ha, htree, -⟩ := compile_inferSchema hlength
  have hcompile : compileText (inferSchema v) = .ok a := by
    rw [compileText, hs]
    exact ha
  have hstart : (Position.start a.tree v Path.defaultRoot).Exemplified :=
    ⟨v, rfl, htree, hproper, huniform, hlength⟩
  rw [Session.shape, hcompile]
  exact congrArg Except.ok (hstart.shaped rfl hexplicit)

/-- An example with empty objects, nulls, a negative zero, and keys that look like marks,
references and placeholders. -/
def frankExample : Value :=
  .obj [("", .null), ("12", .arr [.obj [], .obj []]), ("?x", .str "t"), ("$0", .bool true),
    ("f", .float (.zero true)), ("n", .arr [.arr [.null], .arr [.null, .null]])]

theorem explicit_frankExample : frankExample.Explicit := by
  have hempty : (Value.obj []).Explicit := .obj (List.forall_mem_nil _) (List.forall_mem_nil _)
  refine .obj (by decide) ?_
  simp only [List.forall_mem_cons]
  refine ⟨.null, .arr (by simp) ?_, .str _, .bool _, .num _, .arr (by simp) ?_,
    List.forall_mem_nil _⟩
  · simp only [List.forall_mem_cons]
    exact ⟨hempty, hempty, List.forall_mem_nil _⟩
  · simp only [List.forall_mem_cons]
    refine ⟨.arr (by simp) ?_, .arr (by simp) ?_, List.forall_mem_nil _⟩
    · exact List.forall_mem_singleton.mpr .null
    · simp only [List.forall_mem_cons]
      exact ⟨.null, .null, List.forall_mem_nil _⟩

theorem uniform_frankExample : frankExample.Uniform := by
  have hempty : (Value.obj []).Uniform := .obj (List.forall_mem_nil _)
  refine .obj ?_
  simp only [List.forall_mem_cons]
  refine ⟨.null, .arr ?_ ?_, .str _, .bool _, .num _, .arr ?_ ?_, List.forall_mem_nil _⟩
  · rintro first ⟨⟩
    simp only [List.forall_mem_cons]
    exact ⟨trivial, trivial, List.forall_mem_nil _⟩
  · simp only [List.forall_mem_cons]
    exact ⟨hempty, hempty, List.forall_mem_nil _⟩
  · rintro first ⟨⟩
    simp only [List.forall_mem_cons]
    exact ⟨trivial, by decide, List.forall_mem_nil _⟩
  · simp only [List.forall_mem_cons]
    refine ⟨.arr (by simp) ?_, .arr (by simp) ?_, List.forall_mem_nil _⟩
    · exact List.forall_mem_singleton.mpr .null
    · simp only [List.forall_mem_cons]
      exact ⟨.null, .null, List.forall_mem_nil _⟩

theorem proper_frankExample : frankExample.Proper := by
  have hempty : (Value.obj []).Proper := .obj List.nodup_nil (List.forall_mem_nil _)
  refine .obj (by decide) ?_
  simp only [List.forall_mem_cons]
  refine ⟨.null, .arr ?_, .str _, .bool _, .num _, .arr ?_, List.forall_mem_nil _⟩
  · simp only [List.forall_mem_cons]
    exact ⟨hempty, hempty, List.forall_mem_nil _⟩
  · simp only [List.forall_mem_cons]
    refine ⟨.arr ?_, .arr ?_, List.forall_mem_nil _⟩
    · exact List.forall_mem_singleton.mpr .null
    · simp only [List.forall_mem_cons]
      exact ⟨.null, .null, List.forall_mem_nil _⟩

theorem shape_inferSchema_frankExample :
    inferSchema frankExample = "\x7b:?,12:[\x7b\x7d],?x:s,$0:b,f:i,n:[[?]]\x7d" ∧
      (Session.shape {} frankExample (inferSchema frankExample) {} fun _ => 0).answer =
        .ok frankExample := by
  have htext : inferSchema frankExample =
      "\x7b:?,12:[\x7b\x7d],?x:s,$0:b,f:i,n:[[?]]\x7d" := by
    decide +kernel
  have hlength : (inferSchema frankExample).length ≤ pow2 64 := by
    rw [htext]
    decide
  exact ⟨htext, shape_inferSchema explicit_frankExample uniform_frankExample proper_frankExample
    hlength .enabled _⟩

end TerseSchema
