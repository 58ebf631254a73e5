import TerseSchema.Proofs.Position

/-!
# The positions of a walk in order

The positions that a walk reaches stand in one list: each position comes before
those that it leads to, and of two positions that one leads to, the first comes
with all that it reaches before the second.  What is found in a walk is what is
found at the positions of this list, one after another.

## Main definitions

* `Position.preorder` — the positions that one reaches, depth first.

## Main results

* `mem_preorder`, `nodup_preorder` — **every position that is reached is listed
  once.**
* `validated_eq_flatMap` — the findings of a walk in the order of the list.
-/

namespace TerseSchema

namespace Position

/-! ### Listing positions -/

theorem sizeOf_schema_lt {q q' : Position} (h : Next q q') :
    sizeOf q'.schema < sizeOf q.schema := by
  cases h with
  | @item optional parts place items i v t hp hv ht =>
    have hlt := List.sizeOf_lt_of_mem (List.mem_of_getElem? ht)
    simp only [Tree.array.sizeOf_spec]
    omega
  | @field optional fields wildcard place entries name t hp hf =>
    have hlt := List.sizeOf_lt_of_mem hf
    simp only [Prod.mk.sizeOf_spec] at hlt
    simp only [Tree.object.sizeOf_spec]
    omega
  | other _ _ =>
    simp only [Tree.object.sizeOf_spec, Option.some.sizeOf_spec]
    omega

/-- The positions that one reaches, depth first. -/
def preorder (q : Position) : List Position :=
  q :: q.next.attach.flatMap fun q' => q'.val.preorder
termination_by sizeOf q.schema
decreasing_by exact sizeOf_schema_lt (mem_next.mp q'.property)

theorem preorder_eq (q : Position) : q.preorder = q :: q.next.flatMap preorder := by
  rw [preorder, List.flatMap_subtype fun _ _ => rfl, List.unattach_attach]

/-- The list holds what is reached. -/
theorem mem_preorder {q q' : Position} : q' ∈ q.preorder ↔ Reaches q q' := by
  constructor
  · intro h
    induction q using Position.induct with
    | h q ih =>
      rw [preorder_eq] at h
      rcases List.mem_cons.mp h with rfl | h
      · exact .refl
      · obtain ⟨a, ha, h⟩ := List.mem_flatMap.mp h
        have hstep := mem_next.mp ha
        exact .head hstep (ih a hstep h)
  · intro h
    induction h using Relation.ReflTransGen.head_induction_on with
    | refl =>
      rw [preorder_eq]
      exact List.mem_cons_self
    | head hstep _ ih =>
      rw [preorder_eq]
      exact List.mem_cons_of_mem _ (List.mem_flatMap.mpr ⟨_, mem_next.mpr hstep, ih⟩)

/-- **What is found from a position on, in the order of the list.** -/
theorem validated_eq_flatMap (registry : Registry) (root : Value) (q : Position) :
    q.validated registry root = q.preorder.flatMap (findings registry root) := by
  induction q using Position.induct with
  | h q ih =>
    rw [validated_eq, preorder_eq, List.flatMap_cons, List.flatMap_assoc]
    congr 1
    exact List.flatMap_congr fun q' hq' => ih q' (mem_next.mp hq')

/-! ### No position twice -/

/-- A longer walk has a longer path. -/
theorem Reaches.path {q q' : Position} (h : Reaches q q') :
    ∃ steps, q'.place.path = ⟨q.place.path.root, q.place.path.steps ++ steps⟩ := by
  induction h with
  | refl => exact ⟨[], by rw [List.append_nil]⟩
  | tail _ hstep ih =>
    obtain ⟨steps, hsteps⟩ := ih
    obtain ⟨step, hstep⟩ := hstep.path
    refine ⟨steps ++ [step], ?_⟩
    rw [hstep, hsteps, Path.extend, List.append_assoc]

/-- The paths of two items, fields or keys of one position differ. -/
theorem nodup_next_path {q : Position} (hq : q.Proper) :
    (q.next.map fun q' => q'.place.path).Nodup := by
  obtain ⟨schema, place⟩ := q
  obtain ⟨hschema, hvalue⟩ := hq
  unfold next
  split
  · next optional parts items hs hp =>
    -- the items are numbered
    have hitems : (items.zipIdx.map Prod.snd).Nodup := by
      rw [List.zipIdx_map_snd]
      exact List.nodup_range'
    rw [List.Nodup, List.pairwise_map] at hitems ⊢
    refine List.pairwise_flatMap.mpr ⟨fun e he => ?_, hitems.imp ?_⟩
    · cases nth parts e.2 <;> simp
    · intro a b hne x hx y hy he
      obtain ⟨t, -, rfl⟩ := Option.map_eq_some_iff.mp (Option.mem_toList.mp hx)
      obtain ⟨t', -, rfl⟩ := Option.map_eq_some_iff.mp (Option.mem_toList.mp hy)
      obtain ⟨-, hstep⟩ := Path.extend_inj he
      exact hne (Step.item.inj hstep)
  · next optional fields wildcard entries hs hp =>
    obtain rfl : schema = _ := hs
    have he : (Table.names entries).Nodup := (hvalue _ (Place.value_of_present hp)).nodup
    cases hschema with
    | object hn _ _ =>
      -- the declared names, and under a wildcard the other keys
      have hnames : (Table.names fields ++
          wildcard.toList.flatMap fun _ => Table.names (undeclared fields entries)).Nodup := by
        cases wildcard with
        | none => simpa using hn
        | some t =>
          rw [Option.toList_some, List.flatMap_singleton]
          refine List.nodup_append'.mpr ⟨hn, he.sublist (List.filter_sublist.map _), ?_⟩
          intro name hname hname'
          exact (mem_names_undeclared.mp hname').2 hname
      have hpaths := hnames.map (f := fun name => place.path.extend (.field name))
        fun name name' h => Step.field.inj (Path.extend_inj h).2
      convert hpaths using 1
      simp only [List.map_append, List.map_map, List.map_flatMap, Table.names]
      rfl
  · exact List.nodup_nil

/-- **No position is listed twice.** -/
theorem nodup_preorder {q : Position} (hq : q.Proper) : q.preorder.Nodup := by
  induction q using Position.induct with
  | h q ih =>
    rw [preorder_eq, List.nodup_cons]
    constructor
    · intro hmem
      obtain ⟨a, ha, hreach⟩ := List.mem_flatMap.mp hmem
      have hlength := Reaches.length_path (mem_preorder.mp hreach)
      rw [(mem_next.mp ha).length_path] at hlength
      omega
    · refine List.nodup_flatMap.mpr ⟨fun a ha => ?_, ?_⟩
      · have hstep := mem_next.mp ha
        exact ih a hstep (hq.next hstep)
      · have hpaths := nodup_next_path hq
        rw [List.Nodup, List.pairwise_map] at hpaths
        refine hpaths.imp_of_mem fun {a b} ha hb hne x hx hx' => hne ?_
        -- a position that both reach has a path that both paths begin
        obtain ⟨steps, hsteps⟩ := (mem_preorder.mp hx).path
        obtain ⟨steps', hsteps'⟩ := (mem_preorder.mp hx').path
        have hlength := (mem_next.mp ha).length_path.trans (mem_next.mp hb).length_path.symm
        obtain ⟨hroot, hpath⟩ := Path.mk.inj (hsteps.symm.trans hsteps')
        have hsame := (List.append_inj hpath hlength).1
        calc a.place.path = ⟨a.place.path.root, a.place.path.steps⟩ := rfl
          _ = ⟨b.place.path.root, b.place.path.steps⟩ := by rw [hroot, hsame]
          _ = b.place.path := rfl

end Position

end TerseSchema
