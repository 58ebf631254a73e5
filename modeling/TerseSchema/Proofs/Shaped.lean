import TerseSchema.Proofs.Position
import TerseSchema.Shaping

/-!
# What shaping builds

Shaping meets the same schemas and places as validation.  What it builds at a
position is built out of what it builds at the positions one step further, and
stands there in the whole value: an array has its items in their places, an object
the fields that are written, the last one of each name.

## Main definitions

* `Shaper`, `Shaper.shaped` — one call of shaping, and what it builds at a position.
* `Shaper.shapedEntries` — the fields that it writes for an object.
* `Position.Inside`, `Position.Contains` — one step of shaping, and all its positions.

## Main results

* `shaped_scalar`, `shaped_array`, `shaped_object` — what is built, one level deep.
* `forall₂_shaped_arrays` — two arrays that are built compare place by place.
* `mem_shapedEntries` — which fields are written for an object.
* `at?_shaped_of_contains`, `at?_shaped` — **what is built at a position that shaping, or
  validation, reaches stands at its path.**
-/

namespace TerseSchema

/-- The items at a place; none unless an array is there. -/
def Place.items (place : Place) : List Value := (place.present.bind Value.items?).getD []

/-- The fields at a place; none unless an object is there. -/
def Place.entries (place : Place) : List (String × Value) :=
  (place.present.bind Value.fields?).getD []

theorem Place.items_of_present {place : Place} {items : List Value}
    (h : place.present = some (.arr items)) : place.items = items := by
  rw [Place.items, h]
  rfl

theorem Place.entries_of_present {place : Place} {entries : List (String × Value)}
    (h : place.present = some (.obj entries)) : place.entries = entries := by
  rw [Place.entries, h]
  rfl

theorem leavesOut_of_present {includeOptional optional : Bool} {place : Place} {v : Value}
    (h : place.present = some v) : leavesOut includeOptional optional place = false := by
  rw [leavesOut, h]
  rfl

theorem leavesOut_iff {includeOptional optional : Bool} {place : Place} :
    leavesOut includeOptional optional place = true ↔
      place.present = none ∧ optional = true ∧ includeOptional = false := by
  simp only [leavesOut, Bool.and_eq_true, Option.isNone_iff_eq_none, Bool.not_eq_true', and_assoc]

/-- Whether a part is left out depends on whether something is there, and not on what. -/
theorem leavesOut_congr {place place' : Place}
    (h : place.present.isNone = place'.present.isNone) (includeOptional optional : Bool) :
    leavesOut includeOptional optional place = leavesOut includeOptional optional place' := by
  rw [leavesOut, leavesOut, h]

/-- What is not left out anyway is not if absent parts are included. -/
theorem leavesOut_eq_false {optional : Bool} {place : Place}
    (h : leavesOut false optional place = false) (includeOptional : Bool) :
    leavesOut includeOptional optional place = false := by
  rw [Bool.eq_false_iff] at h ⊢
  intro hl
  obtain ⟨hp, hoptional, -⟩ := leavesOut_iff.mp hl
  exact h (leavesOut_iff.mpr ⟨hp, hoptional, rfl⟩)

theorem optional_of_leavesOut {includeOptional optional : Bool} {place : Place}
    (h : leavesOut includeOptional optional place = true) : optional = true :=
  (leavesOut_iff.mp h).2.1

/-- A cyclic pattern with a part has one for every item. -/
theorem exists_nth {α : Type} {parts : List α} (h : parts ≠ []) (i : Nat) :
    ∃ t, nth parts i = some t :=
  ⟨_, List.getElem?_eq_getElem (Nat.mod_lt i (List.length_pos_iff.mpr h))⟩

/-- What one call of shaping goes by. -/
structure Shaper where
  /-- What type names mean. -/
  registry : Registry
  /-- The value that the call starts from. -/
  root : Value
  /-- Whether absent optional parts are built. -/
  includeOptional : Bool
  /-- The draw made at each path. -/
  draws : Path → Nat

namespace Shaper

variable (sh : Shaper)

/-- What shaping builds at a position. -/
def shaped (q : Position) : Value :=
  ((shaping sh.registry sh.root sh.includeOptional sh.draws).run q.schema q.place).answer

/-- The fields that shaping writes for an object: the declared ones and then, under
a wildcard, those of the other keys. -/
def shapedEntries (fields : List (String × Tree)) (wildcard : Option Tree) (place : Place) :
    List (String × Value) :=
  (fields.map fun (name, t) =>
      (name, sh.shaped ⟨t, place.field name (place.entries.lookup name)⟩)) ++
    wildcard.toList.flatMap fun t => (undeclared fields place.entries).map fun (key, v) =>
      (key, sh.shaped ⟨t, place.field key (some v)⟩)

/-! ### One level deep -/

/-- Where nothing is to be built, nothing is. -/
theorem shaped_of_leavesOut {schema : Tree} {place : Place}
    (h : leavesOut sh.includeOptional schema.optional place = true) :
    sh.shaped ⟨schema, place⟩ = .null := by
  cases schema with
  | scalar optional type declared =>
    rw [shaped, Walk.run_scalar]
    exact congrArg Traced.answer (if_pos h)
  | array optional parts =>
    rw [shaped, Walk.run_array]
    exact congrArg Traced.answer (if_pos h)
  | object optional fields wildcard =>
    rw [shaped, Walk.run_object]
    exact congrArg Traced.answer (if_pos h)

theorem shaped_scalar {optional : Bool} {type : String} {declared : Option Default}
    {place : Place} (h : leavesOut sh.includeOptional optional place = false) :
    sh.shaped ⟨.scalar optional type declared, place⟩ =
      match sh.registry.get? type with
      | none => shapeUnknown declared place.present
      | some known => (shapeKnown known type declared (sh.draws place.path) place.present
          ⟨place.path, sh.root, place.parent⟩).answer := by
  rw [shaped, Walk.run_scalar]
  refine (congrArg Traced.answer (if_neg (Bool.eq_false_iff.mp h))).trans ?_
  cases sh.registry.get? type <;> rfl

theorem shaped_array {optional : Bool} {parts : List Tree} {place : Place}
    (h : leavesOut sh.includeOptional optional place = false) (hparts : parts ≠ []) :
    ∃ built, sh.shaped ⟨.array optional parts, place⟩ =
        .arr built ∧ built.length = max place.items.length parts.length ∧
      ∀ i v, built[i]? = some v → ∃ t, nth parts i = some t ∧
        v = sh.shaped ⟨t, place.item i place.items[i]?⟩ := by
  -- with a part for every item, none is skipped
  choose part hpart using exists_nth hparts
  have hbuilt : sh.shaped ⟨.array optional parts, place⟩ =
      .arr ((List.range (max place.items.length parts.length)).map fun i =>
        sh.shaped ⟨part i, place.item i place.items[i]?⟩) := by
    rw [shaped, Walk.run_array]
    refine (congrArg Traced.answer (if_neg (Bool.eq_false_iff.mp h))).trans ?_
    simp only [nth_map, hpart, Option.map_some, List.filterMap_eq_map', Traced.array, List.map_map,
      List.length_map]
    rfl
  refine ⟨_, hbuilt, by simp, fun i v hv => ⟨part i, hpart i, ?_⟩⟩
  rw [List.getElem?_map] at hv
  obtain ⟨j, hj, rfl⟩ := Option.map_eq_some_iff.mp hv
  obtain rfl : i = j := by
    have := List.getElem?_eq_some_iff.mp hj
    simpa using this.2
  rfl

/-- What is built for an array compares, place by place, with any list that is as long. -/
theorem forall₂_shaped_array {R : Value → Value → Prop} {optional : Bool} {parts : List Tree}
    {place : Place} {items : List Value}
    (h : leavesOut sh.includeOptional optional place = false) (hparts : parts ≠ [])
    (hlength : items.length = max place.items.length parts.length)
    (hitem : ∀ {i t w}, nth parts i = some t → items[i]? = some w →
      R (sh.shaped ⟨t, place.item i place.items[i]?⟩) w) :
    ∃ built, sh.shaped ⟨.array optional parts, place⟩ = .arr built ∧
      List.Forall₂ R built items := by
  obtain ⟨built, hbuilt, hbuiltLength, hpart⟩ := sh.shaped_array h hparts
  refine ⟨built, hbuilt, List.forall₂_iff_get.mpr ⟨by omega, fun i hi hi' => ?_⟩⟩
  obtain ⟨t, ht, hw⟩ := hpart i _ (List.getElem?_eq_getElem hi)
  rw [List.get_eq_getElem, List.get_eq_getElem, hw]
  exact hitem ht (List.getElem?_eq_getElem hi')

/-- What two calls build for arrays of equal length compares place by place, as what
they build with each part does. -/
theorem forall₂_shaped_arrays {R : Value → Value → Prop} {sh sh' : Shaper} {optional : Bool}
    {parts : List Tree} {place place' : Place}
    (h : leavesOut sh.includeOptional optional place = false)
    (h' : leavesOut sh'.includeOptional optional place' = false) (hparts : parts ≠ [])
    (hlength : place.items.length = place'.items.length)
    (hitem : ∀ i, ∀ t ∈ nth parts i, R (sh.shaped ⟨t, place.item i place.items[i]?⟩)
      (sh'.shaped ⟨t, place'.item i place'.items[i]?⟩)) :
    ∃ built built', sh.shaped ⟨.array optional parts, place⟩ = .arr built ∧
      sh'.shaped ⟨.array optional parts, place'⟩ = .arr built' ∧ List.Forall₂ R built built' := by
  obtain ⟨built', hbuilt', hlength', hpart'⟩ := sh'.shaped_array h' hparts
  have hpart : ∀ {i t w}, nth parts i = some t → built'[i]? = some w →
      R (sh.shaped ⟨t, place.item i place.items[i]?⟩) w := by
    intro i t w ht hw
    obtain ⟨t', ht', rfl⟩ := hpart' i w hw
    obtain rfl := Option.some.inj (ht.symm.trans ht')
    exact hitem i t ht
  obtain ⟨built, hbuilt, hrel⟩ := sh.forall₂_shaped_array (R := R) h hparts (by omega) hpart
  exact ⟨built, built', hbuilt, hbuilt', hrel⟩

/-- An object of a schema that says nothing of its keys is kept. -/
theorem shaped_object_any {optional : Bool} {place : Place}
    (h : leavesOut sh.includeOptional optional place = false) :
    sh.shaped ⟨.object optional [] none, place⟩ =
      .obj place.entries := by
  rw [shaped, Walk.run_object]
  exact congrArg Traced.answer (if_neg (Bool.eq_false_iff.mp h))

theorem shaped_object {optional : Bool} {fields : List (String × Tree)} {wildcard : Option Tree}
    {place : Place} (h : leavesOut sh.includeOptional optional place = false)
    (hsome : ¬ (fields = [] ∧ wildcard = none)) :
    sh.shaped ⟨.object optional fields wildcard, place⟩ =
      .obj (Table.ofEntries
        (sh.shapedEntries fields wildcard place)) := by
  let walk := shaping sh.registry sh.root sh.includeOptional sh.draws
  have hopen : ¬ (((fields.map fun (name, t) => (name, walk.run t)).isEmpty &&
      (wildcard.map walk.run).isNone) = true) := by
    simpa using fun hf => not_and.mp hsome hf
  rw [shaped, Walk.run_object]
  refine (congrArg Traced.answer ((if_neg (Bool.eq_false_iff.mp h)).trans (if_neg hopen))).trans ?_
  rw [Traced.object, shapedEntries]
  cases wildcard with
  | none => simp [shaped, Place.entries, Function.comp_def]
  | some t => simp [undeclared_map, shaped, Place.entries, Function.comp_def]

/-- What is built for an object is an object. -/
theorem exists_shaped_object {optional : Bool} (fields : List (String × Tree))
    (wildcard : Option Tree) {place : Place}
    (h : leavesOut sh.includeOptional optional place = false) :
    ∃ built, sh.shaped ⟨.object optional fields wildcard, place⟩ = .obj built := by
  by_cases hany : fields = [] ∧ wildcard = none
  · obtain ⟨rfl, rfl⟩ := hany
    exact ⟨_, sh.shaped_object_any h⟩
  · exact ⟨_, sh.shaped_object h hany⟩

/-! ### The fields of a shaped object -/

/-- A field that is written is a declared one, or one of another key under the
wildcard. -/
theorem mem_shapedEntries {fields : List (String × Tree)} {wildcard : Option Tree}
    {place : Place} {e : String × Value} (h : e ∈ sh.shapedEntries fields wildcard place) :
    (∃ name t, (name, t) ∈ fields ∧
      e = (name, sh.shaped ⟨t, place.field name (place.entries.lookup name)⟩)) ∨
    ∃ t key v, wildcard = some t ∧ (key, v) ∈ undeclared fields place.entries ∧
      e = (key, sh.shaped ⟨t, place.field key (some v)⟩) := by
  rcases List.mem_append.mp h with h | h
  · obtain ⟨⟨name, t⟩, hf, rfl⟩ := List.mem_map.mp h
    exact .inl ⟨name, t, hf, rfl⟩
  · obtain ⟨t, ht, h⟩ := List.mem_flatMap.mp h
    obtain ⟨⟨key, v⟩, hv, rfl⟩ := List.mem_map.mp h
    exact .inr ⟨t, key, v, Option.mem_toList.mp ht, hv, rfl⟩

theorem names_shapedEntries (fields : List (String × Tree)) (wildcard : Option Tree)
    (place : Place) :
    Table.names (sh.shapedEntries fields wildcard place) =
      Table.names fields ++
        if wildcard.isSome then Table.names (undeclared fields place.entries) else [] := by
  rw [shapedEntries, Table.names_append]
  cases wildcard <;> simp [Table.names, Function.comp_def]

/-- A declared field is there, as it is shaped. -/
theorem lookup_shaped_field {fields : List (String × Tree)} {wildcard : Option Tree}
    {place : Place} {name : String} {t : Tree} (hn : (Table.names fields).Nodup)
    (hf : (name, t) ∈ fields) :
    (Table.ofEntries
        (sh.shapedEntries fields wildcard place)).lookup name =
      some (sh.shaped
        ⟨t, place.field name (place.entries.lookup name)⟩) := by
  -- the fields of other keys are written last, but none of them has the name
  have hother : name ∉ Table.names ((wildcard.toList.flatMap fun t =>
      (undeclared fields place.entries).map fun (key, v) => (key,
        sh.shaped
          ⟨t, place.field key (some v)⟩)).reverse) := by
    rw [Table.names, List.map_reverse, List.mem_reverse]
    intro hmem
    obtain ⟨e, he, rfl⟩ := List.mem_map.mp hmem
    obtain ⟨t', -, he⟩ := List.mem_flatMap.mp he
    obtain ⟨e', he', rfl⟩ := List.mem_map.mp he
    exact (mem_undeclared.mp he').2 (List.mem_map_of_mem hf)
  rw [Table.lookup_ofEntries, shapedEntries, List.reverse_append, List.lookup_append,
    Table.lookup_eq_none_of_notMem hother, Option.none_or]
  refine Table.lookup_eq_some_of_mem ?_ (List.mem_reverse.mpr (List.mem_map.mpr ⟨_, hf, rfl⟩))
  rw [Table.names, List.map_reverse, List.nodup_reverse, List.map_map]
  exact hn

/-- Every other key that is there was there before, and is shaped under the
wildcard. -/
theorem undeclared_shaped {fields : List (String × Tree)} {wildcard : Option Tree}
    {place : Place} {key : String} {w : Value} (h : (key, w) ∈ undeclared fields (Table.ofEntries
      (sh.shapedEntries fields wildcard place))) :
    ∃ t v, wildcard = some t ∧ (key, v) ∈ undeclared fields place.entries ∧
      w = sh.shaped ⟨t, place.field key (some v)⟩ := by
  obtain ⟨hmem, hkey⟩ := mem_undeclared.mp h
  obtain ⟨name, t, hf, he⟩ | ⟨t, key', v, ht, hv, he⟩ :=
    sh.mem_shapedEntries (Table.mem_of_mem_ofEntries hmem)
  · obtain ⟨rfl, -⟩ := Prod.mk.inj he
    exact absurd (List.mem_map_of_mem hf) hkey
  · obtain ⟨rfl, rfl⟩ := Prod.mk.inj he
    exact ⟨t, v, ht, hv, rfl⟩

/-- The fields written have distinct names if the declared ones and those there
have. -/
theorem nodup_shapedEntries {fields : List (String × Tree)} {wildcard : Option Tree}
    {place : Place} (hn : (Table.names fields).Nodup) (he : (Table.names place.entries).Nodup) :
    (Table.names
      (sh.shapedEntries fields wildcard place)).Nodup := by
  rw [names_shapedEntries]
  split
  · refine List.nodup_append'.mpr ⟨hn, he.sublist (List.filter_sublist.map _), ?_⟩
    intro name hname hname'
    obtain ⟨e, he, rfl⟩ := List.mem_map.mp hname'
    exact (mem_undeclared.mp he).2 hname
  · rw [List.append_nil]
    exact hn

/-- Where they are distinct, all fields written are kept. -/
theorem shaped_object_of_nodup {optional : Bool} {fields : List (String × Tree)}
    {wildcard : Option Tree} {place : Place}
    (h : leavesOut sh.includeOptional optional place = false)
    (hsome : ¬ (fields = [] ∧ wildcard = none)) (hn : (Table.names fields).Nodup)
    (he : (Table.names place.entries).Nodup) :
    sh.shaped ⟨.object optional fields wildcard, place⟩ =
      .obj (sh.shapedEntries fields wildcard place) := by
  rw [sh.shaped_object h hsome, Table.ofEntries_of_nodup (sh.nodup_shapedEntries hn he)]

end Shaper

/-! ### The positions that shaping leads to -/

theorem Place.child?_item (place : Place) (index : Nat) :
    place.value.bind (·.child? (.item index)) = place.items[index]? := by
  rw [Place.items, Place.present]
  cases place.value with
  | none => rfl
  | some v => cases v <;> rfl

theorem Place.child?_field (place : Place) (name : String) :
    place.value.bind (·.child? (.field name)) = place.entries.lookup name := by
  rw [Place.entries, Place.present]
  cases place.value with
  | none => rfl
  | some v => cases v <;> rfl

theorem Place.proper_items {place : Place} (h : ∀ v ∈ place.value, v.Proper) :
    (Value.arr place.items).Proper := by
  rw [Place.items]
  cases hp : place.present with
  | none => exact .arr (List.forall_mem_nil _)
  | some v =>
    cases v with
    | arr items => exact h _ (Place.value_of_present hp)
    | _ => exact .arr (List.forall_mem_nil _)

theorem Place.proper_entries {place : Place} (h : ∀ v ∈ place.value, v.Proper) :
    (Value.obj place.entries).Proper := by
  rw [Place.entries]
  cases hp : place.present with
  | none => exact .obj List.nodup_nil (List.forall_mem_nil _)
  | some v =>
    cases v with
    | obj entries => exact h _ (Place.value_of_present hp)
    | _ => exact .obj List.nodup_nil (List.forall_mem_nil _)

namespace Position

/-- The ways from a position to those inside it, where shaping does not leave it out.  An
array is filled up to its pattern, and the declared fields of an object are built whether
they are there or not. -/
inductive Inside : Position → Position → Prop
  | item {optional : Bool} {parts : List Tree} {place : Place} {i : Nat} {t : Tree} :
      leavesOut false optional place = false → i < max place.items.length parts.length →
      nth parts i = some t →
      Inside ⟨.array optional parts, place⟩ ⟨t, place.item i place.items[i]?⟩
  | field {optional : Bool} {fields : List (String × Tree)} {wildcard : Option Tree}
      {place : Place} {name : String} {t : Tree} :
      leavesOut false optional place = false → (name, t) ∈ fields →
      Inside ⟨.object optional fields wildcard, place⟩
        ⟨t, place.field name (place.entries.lookup name)⟩
  | other {optional : Bool} {fields : List (String × Tree)} {t : Tree} {place : Place}
      {key : String} {v : Value} :
      leavesOut false optional place = false →
      (key, v) ∈ undeclared fields place.entries →
      Inside ⟨.object optional fields (some t), place⟩ ⟨t, place.field key (some v)⟩

/-- The positions that shaping reaches from one. -/
def Contains : Position → Position → Prop := Relation.ReflTransGen Inside

/-- Shaping leads wherever validation does. -/
theorem Next.inside {q q' : Position} (h : Next q q') : Inside q q' := by
  cases h with
  | @item optional parts place items i v t hp hv ht =>
    rw [← place.items_of_present hp] at hv
    have hi := (List.getElem?_eq_some_iff.mp hv).1
    rw [← hv]
    exact .item (leavesOut_of_present hp) (by omega) ht
  | @field optional fields wildcard place entries name t hp hf =>
    rw [← place.entries_of_present hp]
    exact .field (leavesOut_of_present hp) hf
  | @other optional fields t place entries key v hp hv =>
    rw [← place.entries_of_present hp] at hv
    exact .other (leavesOut_of_present hp) hv

theorem Reaches.contains {q q' : Position} (h : q.Reaches q') : q.Contains q' :=
  Relation.ReflTransGen.mono (fun _ _ => Next.inside) _ _ h

/-- A step of shaping is a step into the value. -/
theorem Inside.child? {q q' : Position} (hq : q.Proper) (h : Inside q q') :
    ∃ step, q'.place.path = q.place.path.extend step ∧
      q.place.value.bind (·.child? step) = q'.place.value := by
  cases h with
  | @item optional parts place i t => exact ⟨.item i, rfl, place.child?_item i⟩
  | @field optional fields wildcard place name t =>
    exact ⟨.field name, rfl, place.child?_field name⟩
  | @other optional fields t place key v _ hv =>
    refine ⟨.field key, rfl, (place.child?_field key).trans ?_⟩
    exact Table.lookup_eq_some_of_mem (Place.proper_entries hq.value).nodup (mem_undeclared.mp hv).1

theorem Proper.inside {q q' : Position} (hq : q.Proper) (h : Inside q q') : q'.Proper := by
  obtain ⟨hschema, hvalue⟩ := hq
  have hitems := (Place.proper_items hvalue).item
  have hentries := (Place.proper_entries hvalue).field
  cases h with
  | item _ _ ht =>
    cases hschema with
    | array _ hparts =>
      exact ⟨hparts _ (List.mem_of_getElem? ht), fun v hv => hitems v (List.mem_of_getElem? hv)⟩
  | field _ hf =>
    cases hschema with
    | object _ hfields _ =>
      exact ⟨hfields _ hf, fun v hv => hentries _ (Table.mem_of_lookup_eq_some hv)⟩
  | other _ hv =>
    cases hschema with
    | object _ _ hwildcard =>
      refine ⟨hwildcard _ rfl, ?_⟩
      rintro _ ⟨⟩
      exact hentries _ (mem_undeclared.mp hv).1

theorem Proper.contains {q q' : Position} (hq : q.Proper) (h : q.Contains q') : q'.Proper := by
  induction h with
  | refl => exact hq
  | tail _ hstep ih => exact ih.inside hstep

/-- A path leads from the value to what shaping meets there. -/
theorem at?_of_contains {schema : Tree} {v : Value} {pathRoot : String} {q : Position}
    (hstart : (start schema v pathRoot).Proper) (h : (start schema v pathRoot).Contains q) :
    v.at? q.place.path.steps = q.place.value := by
  induction h with
  | refl => rfl
  | tail hreach hstep ih =>
    obtain ⟨step, hpath, hchild⟩ := hstep.child? (hstart.contains hreach)
    rw [hpath, Path.extend, Value.at?_concat, ih]
    exact hchild

end Position

/-! ### Where things stand -/

namespace Shaper

variable (sh : Shaper)

/-- What is built one step further stands one step further. -/
theorem child?_shaped {q q' : Position} (hq : q.Proper) (h : q.Inside q') :
    ∃ step, q'.place.path = q.place.path.extend step ∧
      (sh.shaped q).child? step = some (sh.shaped q') := by
  obtain ⟨hschema, hvalue⟩ := hq
  cases h with
  | @item optional parts place i t hbuilds hi ht =>
    have hl := leavesOut_eq_false hbuilds sh.includeOptional
    cases hschema with
    | array hparts _ =>
      obtain ⟨built, hbuilt, hlength, hitem⟩ := sh.shaped_array hl hparts
      rw [← hlength] at hi
      obtain ⟨t', ht', hw⟩ := hitem i _ (List.getElem?_eq_getElem hi)
      obtain rfl := Option.some.inj (ht.symm.trans ht')
      refine ⟨.item i, rfl, ?_⟩
      rw [hbuilt]
      show built[i]? = _
      rw [List.getElem?_eq_getElem hi, hw]
  | @field optional fields wildcard place name t hbuilds hf =>
    have hl := leavesOut_eq_false hbuilds sh.includeOptional
    have hsome : ¬ (fields = [] ∧ wildcard = none) := by
      rintro ⟨rfl, -⟩
      cases hf
    cases hschema with
    | object hn _ _ =>
      refine ⟨.field name, rfl, ?_⟩
      rw [sh.shaped_object hl hsome]
      exact sh.lookup_shaped_field hn hf
  | @other optional fields t place key v hbuilds hv =>
    have hl := leavesOut_eq_false hbuilds sh.includeOptional
    have hsome : ¬ (fields = [] ∧ some t = none) := fun h => Option.some_ne_none t h.2
    -- two fields of one key would leave only the last one standing
    have he : (Table.names place.entries).Nodup := (Place.proper_entries hvalue).nodup
    cases hschema with
    | object hn _ _ =>
      refine ⟨.field key, rfl, ?_⟩
      rw [sh.shaped_object_of_nodup hl hsome hn he]
      refine Table.lookup_eq_some_of_mem (sh.nodup_shapedEntries hn he)
        (List.mem_append_right _ ?_)
      exact List.mem_flatMap.mpr ⟨t, List.mem_singleton_self t, List.mem_map.mpr ⟨_, hv, rfl⟩⟩

/-- What is built at a position that shaping reaches stands at its path. -/
theorem at?_shaped_of_contains {q q' : Position} (hq : q.Proper) (h : q.Contains q') :
    ∃ steps, q'.place.path.steps = q.place.path.steps ++ steps ∧
      (sh.shaped q).at? steps = some (sh.shaped q') := by
  induction h with
  | refl => exact ⟨[], (List.append_nil _).symm, rfl⟩
  | tail hreach hstep ih =>
    obtain ⟨steps, hsteps, hat⟩ := ih
    obtain ⟨step, hpath, hchild⟩ := sh.child?_shaped (hq.contains hreach) hstep
    refine ⟨steps ++ [step], ?_, ?_⟩
    · rw [hpath, Path.extend, hsteps, List.append_assoc]
    · rw [Value.at?_concat, hat]
      exact hchild

/-- **What is built at a position that validation reaches stands at its path.** -/
theorem at?_shaped {q q' : Position} (hq : q.Proper) (h : q.Reaches q') :
    ∃ steps, q'.place.path.steps = q.place.path.steps ++ steps ∧
      (sh.shaped q).at? steps = some (sh.shaped q') :=
  sh.at?_shaped_of_contains hq h.contains

end Shaper

end TerseSchema
