import TerseSchema.Proofs.Inclusion
import TerseSchema.Proofs.Layers
import TerseSchema.Proofs.SideBySide

/-!
# The order of fields

Two values may differ in the order in which their objects hold their fields.  The engines
visit the declared fields of an object in the order of the schema, and only the keys under
a wildcard in that of the value, so that the order of fields decides at most on the order
of what they answer.

## Main definitions

* `Value.Reordered` — two values are equal but for the order of fields.
* `Registry.IgnoresOrder` — checks do not look at the order of fields.
* `Tree.IsClosed` — no object of a schema has a wildcard.

## Main results

* `Position.Reordered.next`, `Position.Reordered.record?_eq` — one step and one position of
  two validations.
* `Shaper.shaped_reordered` — **reordered values are shaped into reordered values.**
* `observed_reordered` — **the order of fields decides on no verdict.**
-/

namespace TerseSchema

/-! ### Reordered values -/

/-- Two values are equal but for the order of fields, at every depth: the values behind
the fields of an object are reordered, and then the fields. -/
inductive Value.Reordered : Value → Value → Prop
  | refl (v : Value) : Reordered v v
  | arr {items items' : List Value} : List.Forall₂ Reordered items items' →
      Reordered (.arr items) (.arr items')
  | obj {fields mid fields' : List (String × Value)} : (Table.names fields).Nodup →
      Table.names fields = Table.names mid →
      List.Forall₂ Reordered (fields.map Prod.snd) (mid.map Prod.snd) → mid.Perm fields' →
      Reordered (.obj fields) (.obj fields')

/-- Two fields of one name, with reordered values. -/
structure ReorderedField (e e' : String × Value) : Prop where
  name : e.1 = e'.1
  value : e.2.Reordered e'.2

theorem forall₂_reorderedField {fields fields' : List (String × Value)} :
    List.Forall₂ ReorderedField fields fields' ↔ Table.names fields = Table.names fields' ∧
      List.Forall₂ Value.Reordered (fields.map Prod.snd) (fields'.map Prod.snd) := by
  rw [Table.names, Table.names, map_eq_map_iff_forall₂, List.forall₂_map_left_iff,
    List.forall₂_map_right_iff, List.forall₂_iff_zip, List.forall₂_iff_zip, List.forall₂_iff_zip]
  constructor
  · rintro ⟨hlength, h⟩
    exact ⟨⟨hlength, fun he => (h he).name⟩, hlength, fun he => (h he).value⟩
  · rintro ⟨⟨hlength, hname⟩, -, hvalue⟩
    exact ⟨hlength, fun he => ⟨hname he, hvalue he⟩⟩

/-- Objects are reordered if their fields match. -/
theorem Value.Reordered.of_matched {fields fields' : List (String × Value)}
    (hn : (Table.names fields).Nodup) (h : Matched ReorderedField fields fields') :
    Reordered (.obj fields) (.obj fields') := by
  obtain ⟨mid, hmid, hperm⟩ := h
  obtain ⟨hnames, hvalues⟩ := forall₂_reorderedField.mp hmid
  exact .obj hn hnames hvalues hperm

/-- Fields that match have the same names, but for the order. -/
theorem names_perm_of_matched {fields fields' : List (String × Value)}
    (h : Matched ReorderedField fields fields') :
    (Table.names fields).Perm (Table.names fields') := by
  obtain ⟨mid, hmid, hperm⟩ := h
  rw [(forall₂_reorderedField.mp hmid).1]
  exact hperm.map Prod.fst

theorem rel_lookup_of_forall₂ {fields fields' : List (String × Value)}
    (h : List.Forall₂ ReorderedField fields fields') (name : String) :
    Option.Rel Value.Reordered (fields.lookup name) (fields'.lookup name) := by
  induction h with
  | nil => exact .none
  | @cons e e' _ _ he _ ih =>
    rw [List.lookup_cons, List.lookup_cons, ← he.name]
    split
    · exact .some he.value
    · exact ih

/-- Fields that match are found under the same names, if these are distinct. -/
theorem rel_lookup {fields fields' : List (String × Value)} (hn : (Table.names fields).Nodup)
    (h : Matched ReorderedField fields fields') (name : String) :
    Option.Rel Value.Reordered (fields.lookup name) (fields'.lookup name) := by
  have hn' := (names_perm_of_matched h).nodup_iff.mp hn
  obtain ⟨mid, hmid, hperm⟩ := h
  -- first the values are exchanged one by one, then the fields are reordered
  rw [← (Table.Same.of_perm hn' hperm).lookup name]
  exact rel_lookup_of_forall₂ hmid name

/-- The field of a name is found whatever the order. -/
theorem Value.Reordered.get? {v v' : Value} (h : v.Reordered v') (name : String) :
    Option.Rel Value.Reordered (v.get? name) (v'.get? name) := by
  cases h with
  | refl v =>
    cases v.get? name with
    | none => exact .none
    | some w => exact .some (.refl w)
  | arr _ => exact .none
  | obj hn hnames hvalues hperm =>
    exact rel_lookup hn ⟨_, forall₂_reorderedField.mpr ⟨hnames, hvalues⟩, hperm⟩ name

/-! ### Reordered places -/

/-- Two places of the same path, at which nothing differs but the order of fields. -/
structure Place.Reordered (place place' : Place) : Prop where
  path : place.path = place'.path
  value : Option.Rel Value.Reordered place.value place'.value
  parent : Option.Rel Value.Reordered place.parent place'.parent

namespace Place.Reordered

variable {place place' : Place}

/-- What is present at two reordered places: the same, or two arrays with reordered
items, or two objects with matching fields. -/
theorem present_cases (h : place.Reordered place') :
    place.present = place'.present ∨
      (∃ items items', place.present = some (.arr items) ∧ place'.present = some (.arr items') ∧
        List.Forall₂ Value.Reordered items items') ∨
      ∃ fields fields', place.present = some (.obj fields) ∧ place'.present = some (.obj fields') ∧
        (Table.names fields).Nodup ∧ Matched ReorderedField fields fields' := by
  obtain ⟨-, hvalue, -⟩ := h
  generalize hx : place.value = x at hvalue
  generalize hx' : place'.value = x' at hvalue
  cases hvalue with
  | none => exact .inl (by rw [Place.present, Place.present, hx, hx'])
  | some hv =>
    -- `null` is reordered into itself only, and no array or object is `null`
    cases hv with
    | refl => exact .inl (by rw [Place.present, Place.present, hx, hx'])
    | arr hitems =>
      have hp := Place.present_of_value hx (by simp)
      have hp' := Place.present_of_value hx' (by simp)
      exact .inr (.inl ⟨_, _, hp, hp', hitems⟩)
    | obj hn hnames hvalues hperm =>
      have hp := Place.present_of_value hx (by simp)
      have hp' := Place.present_of_value hx' (by simp)
      exact .inr (.inr ⟨_, _, hp, hp', hn, _, forall₂_reorderedField.mpr ⟨hnames, hvalues⟩, hperm⟩)

theorem present (h : place.Reordered place') :
    Option.Rel Value.Reordered place.present place'.present := by
  rcases h.present_cases with hp | ⟨_, _, hp, hp', hitems⟩ | ⟨_, _, hp, hp', hn, hfields⟩
  · rw [hp]
    cases place'.present with
    | none => exact .none
    | some v => exact .some (.refl v)
  · rw [hp, hp']
    exact .some (.arr hitems)
  · rw [hp, hp']
    exact .some (.of_matched hn hfields)

/-- Something is there at both of two reordered places, or at neither. -/
theorem isNone_present (h : place.Reordered place') :
    place.present.isNone = place'.present.isNone := by
  rcases h.present_cases with hp | ⟨_, _, hp, hp', -⟩ | ⟨_, _, hp, hp', -⟩
  · rw [hp]
  · rw [hp, hp']
    rfl
  · rw [hp, hp']
    rfl

/-- An object is there at both of two reordered places, or at neither. -/
theorem isNone_fields (h : place.Reordered place') :
    (place.present.bind Value.fields?).isNone = (place'.present.bind Value.fields?).isNone := by
  rcases h.present_cases with hp | ⟨_, _, hp, hp', -⟩ | ⟨_, _, hp, hp', -⟩
  · rw [hp]
  · rw [hp, hp']
    rfl
  · rw [hp, hp']
    rfl

theorem items (h : place.Reordered place') :
    List.Forall₂ Value.Reordered place.items place'.items := by
  rcases h.present_cases with hp | ⟨_, _, hp, hp', hitems⟩ | ⟨_, _, hp, hp', -⟩
  · rw [Place.items, Place.items, hp]
    exact List.forall₂_same.mpr fun v _ => .refl v
  · rw [place.items_of_present hp, place'.items_of_present hp']
    exact hitems
  · rw [Place.items, Place.items, hp, hp']
    exact .nil

theorem entries (h : place.Reordered place') :
    Matched ReorderedField place.entries place'.entries := by
  rcases h.present_cases with hp | ⟨_, _, hp, hp', -⟩ | ⟨_, _, hp, hp', -, hfields⟩
  · rw [Place.entries, Place.entries, hp]
    exact .of_forall₂ (List.forall₂_same.mpr fun e _ => ⟨rfl, .refl e.2⟩)
  · rw [Place.entries, Place.entries, hp, hp']
    exact .of_forall₂ .nil
  · rw [place.entries_of_present hp, place'.entries_of_present hp']
    exact hfields

/-- The declared fields are found whatever the order. -/
theorem lookup_entries (h : place.Reordered place') (name : String) :
    Option.Rel Value.Reordered (place.entries.lookup name) (place'.entries.lookup name) := by
  rcases h.present_cases with hp | ⟨_, _, hp, hp', -⟩ | ⟨_, _, hp, hp', hn, hfields⟩
  · rw [Place.entries, Place.entries, hp]
    exact rel_lookup_of_forall₂ (List.forall₂_same.mpr fun e _ => ⟨rfl, .refl e.2⟩) name
  · rw [Place.entries, Place.entries, hp, hp']
    exact .none
  · rw [place.entries_of_present hp, place'.entries_of_present hp']
    exact rel_lookup hn hfields name

/-! One step further, places are reordered again. -/

theorem item (h : place.Reordered place') (i : Nat) {x x' : Option Value}
    (hx : Option.Rel Value.Reordered x x') : (place.item i x).Reordered (place'.item i x') :=
  ⟨congrArg (Path.extend · (.item i)) h.path, hx, h.present⟩

theorem field (h : place.Reordered place') (name : String) {x x' : Option Value}
    (hx : Option.Rel Value.Reordered x x') :
    (place.field name x).Reordered (place'.field name x') :=
  ⟨congrArg (Path.extend · (.field name)) h.path, hx, h.present⟩

end Place.Reordered

/-! ### Two validations side by side -/

/-- Checks do not look at the order of fields, and samples do not vary. -/
structure Registry.IgnoresOrder (registry : Registry) : Prop where
  check : ∀ name type, registry.get? name = some type → ∀ path {v v' root root' parent parent'},
    Value.Reordered v v' → Value.Reordered root root' →
    Option.Rel Value.Reordered parent parent' →
    type.check v ⟨path, root, parent⟩ = type.check v' ⟨path, root', parent'⟩
  sample : registry.HasFixedSamples

/-- No object of a schema has a wildcard. -/
inductive Tree.IsClosed : Tree → Prop
  | scalar (optional : Bool) (type : String) (declared : Option Default) :
      IsClosed (.scalar optional type declared)
  | array {optional : Bool} {parts : List Tree} : (∀ t ∈ parts, IsClosed t) →
      IsClosed (.array optional parts)
  | object {optional : Bool} {fields : List (String × Tree)} : (∀ f ∈ fields, IsClosed f.2) →
      IsClosed (.object optional fields none)

namespace Position

/-- Two positions of the same schema at reordered places. -/
structure Reordered (q q' : Position) : Prop where
  schema : q.schema = q'.schema
  place : q.place.Reordered q'.place

/-- Reordered positions are one schema at reordered places. -/
theorem Reordered.places {q q' : Position} (h : Reordered q q') :
    ∃ schema place place', q = ⟨schema, place⟩ ∧ q' = ⟨schema, place'⟩ ∧
      place.Reordered place' := by
  obtain ⟨schema, place⟩ := q
  obtain ⟨schema', place'⟩ := q'
  obtain rfl : schema = schema' := h.schema
  exact ⟨schema, place, place', rfl, rfl, h.place⟩

variable {place place' : Place} {optional : Bool} {parts : List Tree}
  {fields : List (String × Tree)} {wildcard : Option Tree}

theorem next_reordered_array (h : place.Reordered place') :
    List.Forall₂ Reordered (next ⟨.array optional parts, place⟩)
      (next ⟨.array optional parts, place'⟩) := by
  rw [next_array, next_array]
  refine List.rel_flatMap (forall₂_zipIdx h.items 0) ?_
  rintro ⟨v, i⟩ ⟨v', _⟩ ⟨hv, rfl⟩
  dsimp only
  cases nth parts i with
  | none => exact .nil
  | some t => exact .cons ⟨rfl, h.item i (.some hv)⟩ .nil

/-- The declared fields are visited in the same order. -/
theorem forall₂_declared (h : place.Reordered place') :
    List.Forall₂ Reordered
      (fields.map fun f => ⟨f.2, place.field f.1 (place.entries.lookup f.1)⟩)
      (fields.map fun f => ⟨f.2, place'.field f.1 (place'.entries.lookup f.1)⟩) := by
  rw [List.forall₂_map_left_iff, List.forall₂_map_right_iff, List.forall₂_same]
  intro f _
  exact ⟨rfl, h.field f.1 (h.lookup_entries f.1)⟩

/-- The other keys are visited in some order. -/
theorem matched_undeclared (h : place.Reordered place') :
    Matched ReorderedField (undeclared fields place.entries)
      (undeclared fields place'.entries) := by
  refine h.entries.filter fun e e' he => ?_
  simp only [he.name]

/-- **One step of two validations**: reordered positions lead to reordered positions, in
some order. -/
theorem Reordered.next {q q' : Position} (h : Reordered q q') :
    Matched Reordered q.next q'.next := by
  obtain ⟨schema, place, place', rfl, rfl, hplace⟩ := h.places
  cases schema with
  | scalar optional type declared => exact .of_forall₂ .nil
  | array optional parts => exact .of_forall₂ (next_reordered_array hplace)
  | object optional fields wildcard =>
    rw [next_object, next_object, hplace.isNone_fields]
    split
    · exact .of_forall₂ .nil
    · -- the declared fields come in the order of the schema, the others in that of the value
      refine (Matched.of_forall₂ (forall₂_declared hplace)).append ?_
      cases wildcard with
      | none => exact .of_forall₂ .nil
      | some t =>
        rw [Option.toList_some, List.flatMap_singleton, List.flatMap_singleton]
        refine (matched_undeclared hplace).map fun e e' he => ⟨rfl, ?_⟩
        rw [← he.name]
        exact hplace.field e.1 (.some he.value)

theorem closed_next {q q' : Position} (hq : q.schema.IsClosed) (h : Next q q') :
    q'.schema.IsClosed := by
  cases h with
  | item _ _ ht =>
    cases hq with
    | array hparts => exact hparts _ (List.mem_of_getElem? ht)
  | field _ hf =>
    cases hq with
    | object hfields => exact hfields _ hf
  | other _ _ => cases hq

/-- Without wildcards, they do so in the same order. -/
theorem Reordered.next_of_closed {q q' : Position} (hq : q.schema.IsClosed) (h : Reordered q q') :
    List.Forall₂ (fun a b => a.schema.IsClosed ∧ Reordered a b) q.next q'.next := by
  refine (List.forall₂_and_left _ _).mpr ⟨fun a ha => closed_next hq (mem_next.mp ha), ?_⟩
  obtain ⟨schema, place, place', rfl, rfl, hplace⟩ := h.places
  cases hq with
  | scalar optional type declared => exact .nil
  | array _ => exact next_reordered_array hplace
  | object _ =>
    rw [next_object, next_object, hplace.isNone_fields]
    split
    · exact .nil
    · exact List.rel_append (forall₂_declared hplace) .nil

theorem check_reordered {registry : Registry} (hignores : registry.IgnoresOrder) (type : String)
    {root root' v v' : Value} (hroot : root.Reordered root') (hv : v.Reordered v')
    (h : place.Reordered place') :
    registry.check type v ⟨place.path, root, place.parent⟩ =
      registry.check type v' ⟨place'.path, root', place'.parent⟩ := by
  rw [Registry.check, Registry.check]
  cases hget : registry.get? type with
  | none => rfl
  | some known =>
    rw [← h.path]
    simp only [hignores.check type known hget place.path hv hroot h.parent]

/-- **One position of two validations**: reordered positions have the same record. -/
theorem Reordered.record?_eq {registry : Registry} (hignores : registry.IgnoresOrder)
    {root root' : Value} (hroot : root.Reordered root') {q q' : Position} (h : Reordered q q') :
    q.record? registry root = q'.record? registry root' := by
  obtain ⟨schema, place, place', rfl, rfl, hplace⟩ := h.places
  have hpresent : Option.Rel Value.Reordered place.present place'.present := hplace.present
  rw [record?, record?, ← hplace.path]
  congr 1
  generalize hx : place.present = x at hpresent
  generalize hx' : place'.present = x' at hpresent
  cases hpresent with
  | none => rw [violation?_of_absent schema hx, violation?_of_absent schema hx']
  | some hv =>
    rw [violation?_of_present schema hx, violation?_of_present schema hx']
    cases schema with
    | scalar optional type declared => simp only [check_reordered hignores type hroot hv hplace]
    | array optional parts => cases hv <;> rfl
    | object optional fields wildcard => cases hv <;> rfl

end Position

/-! ### Two shapings side by side -/

namespace Shaper

variable {sh : Shaper} {root : Value} {draws : Path → Nat} {place place' : Place}
  {optional : Bool} {parts : List Tree} {fields : List (String × Tree)} {wildcard : Option Tree}

/-- What two calls build with a schema at reordered places is reordered. -/
def BuildsReordered (sh sh' : Shaper) (t : Tree) : Prop :=
  ∀ {place place' : Place}, (∀ v ∈ place.value, v.Proper) → place.Reordered place' →
    (sh.shaped ⟨t, place⟩).Reordered (sh'.shaped ⟨t, place'⟩)

/-- Where nothing is built for a value, nothing is for one that is reordered. -/
theorem shaped_reordered_of_leavesOut {schema : Tree} (h : place.Reordered place')
    (hl : leavesOut sh.includeOptional schema.optional place = true) :
    (sh.shaped ⟨schema, place⟩).Reordered ((sh.again root draws).shaped ⟨schema, place'⟩) := by
  have hl' : leavesOut (sh.again root draws).includeOptional schema.optional place' = true :=
    (leavesOut_congr h.isNone_present _ _).symm.trans hl
  rw [sh.shaped_of_leavesOut hl, (sh.again root draws).shaped_of_leavesOut hl']
  exact .refl .null

/-- A scalar is kept in both values or in neither. -/
theorem shaped_scalar_reordered (hignores : sh.registry.IgnoresOrder)
    (hroot : sh.root.Reordered root) {type : String} {declared : Option Default}
    (h : place.Reordered place') (hl : leavesOut sh.includeOptional optional place = false) :
    (sh.shaped ⟨.scalar optional type declared, place⟩).Reordered
      ((sh.again root draws).shaped ⟨.scalar optional type declared, place'⟩) := by
  have hl' : leavesOut (sh.again root draws).includeOptional optional place' = false :=
    (leavesOut_congr h.isNone_present _ _).symm.trans hl
  have hget : (sh.again root draws).registry.get? type = sh.registry.get? type := rfl
  have hroot' : sh.root.Reordered (sh.again root draws).root := hroot
  have hpresent := h.present
  rw [shaped_scalar sh hl, shaped_scalar (sh.again root draws) hl', hget]
  generalize place.present = x at hpresent
  generalize place'.present = x' at hpresent
  cases hknown : sh.registry.get? type with
  | none =>
    cases hpresent with
    | none => exact .refl _
    | some hv => exact hv
  | some known =>
    have hfallback : fallback known declared (sh.draws place.path) =
        fallback known declared ((sh.again root draws).draws place'.path) :=
      hignores.sample.fallback hknown declared _ _
    cases hpresent with
    | none =>
      show (fallback known declared _).Reordered (fallback known declared _)
      rw [hfallback]
      exact .refl _
    | some hv =>
      -- the type accepts both values or neither
      have hcheck := hignores.check type known hknown place.path hv hroot' h.parent
      simp only [shapeKnown, hfallback, hcheck, ← h.path]
      split_ifs
      · exact hv
      · exact .refl _

/-- The items are built of reordered items, and are as many. -/
theorem shaped_array_reordered (hparts : parts ≠ []) (hvalue : ∀ v ∈ place.value, v.Proper)
    (h : place.Reordered place') (hl : leavesOut sh.includeOptional optional place = false)
    (hbuilds : ∀ t ∈ parts, BuildsReordered sh (sh.again root draws) t) :
    (sh.shaped ⟨.array optional parts, place⟩).Reordered
      ((sh.again root draws).shaped ⟨.array optional parts, place'⟩) := by
  have hl' : leavesOut (sh.again root draws).includeOptional optional place' = false :=
    (leavesOut_congr h.isNone_present _ _).symm.trans hl
  have hproper : ∀ i, ∀ v ∈ place.items[i]?, Value.Proper v := fun i v hv =>
    (Place.proper_items hvalue).item v (List.mem_of_getElem? hv)
  obtain ⟨built, built', hbuilt, hbuilt', hrel⟩ := forall₂_shaped_arrays hl hl' hparts
    h.items.length_eq fun i t ht => hbuilds t (List.mem_of_getElem? ht) (hproper i)
      (h.item i (rel_getElem? h.items i))
  rw [hbuilt, hbuilt']
  exact .arr hrel

/-- The fields written for two reordered objects match: the declared ones one by one, and
those of the other keys in some order. -/
theorem shapedEntries_reordered (hvalue : ∀ v ∈ place.value, v.Proper)
    (h : place.Reordered place')
    (hbuilds : ∀ t, t ∈ fields.map Prod.snd ∨ t ∈ wildcard →
      BuildsReordered sh (sh.again root draws) t) :
    Matched ReorderedField (sh.shapedEntries fields wildcard place)
      ((sh.again root draws).shapedEntries fields wildcard place') := by
  have hentries := (Place.proper_entries hvalue).field
  refine Matched.append (.of_forall₂ ?_) ?_
  · rw [List.forall₂_map_left_iff, List.forall₂_map_right_iff, List.forall₂_same]
    intro f hf
    refine ⟨rfl, hbuilds f.2 (.inl (List.mem_map_of_mem hf)) (fun v hv => ?_) ?_⟩
    · exact hentries _ (Table.mem_of_lookup_eq_some hv)
    · exact h.field f.1 (h.lookup_entries f.1)
  · cases wildcard with
    | none => exact .of_forall₂ .nil
    | some t =>
      rw [Option.toList_some, List.flatMap_singleton, List.flatMap_singleton]
      refine (Position.matched_undeclared h).and_mem.map fun e e' ⟨hmem, he⟩ => ⟨he.name, ?_⟩
      show (sh.shaped ⟨t, place.field e.1 (some e.2)⟩).Reordered
        ((sh.again root draws).shaped ⟨t, place'.field e'.1 (some e'.2)⟩)
      rw [← he.name]
      refine hbuilds t (.inr rfl) ?_ (h.field e.1 (.some he.value))
      rintro _ ⟨⟩
      exact hentries e (mem_undeclared.mp hmem).1

theorem shaped_object_reordered (hn : (Table.names fields).Nodup)
    (hvalue : ∀ v ∈ place.value, v.Proper) (h : place.Reordered place')
    (hl : leavesOut sh.includeOptional optional place = false)
    (hbuilds : ∀ t, t ∈ fields.map Prod.snd ∨ t ∈ wildcard →
      BuildsReordered sh (sh.again root draws) t) :
    (sh.shaped ⟨.object optional fields wildcard, place⟩).Reordered
      ((sh.again root draws).shaped ⟨.object optional fields wildcard, place'⟩) := by
  have hl' : leavesOut (sh.again root draws).includeOptional optional place' = false :=
    (leavesOut_congr h.isNone_present _ _).symm.trans hl
  have hentries := (Place.proper_entries hvalue).nodup
  by_cases hany : fields = [] ∧ wildcard = none
  · -- the object is kept as it is
    obtain ⟨rfl, rfl⟩ := hany
    rw [shaped_object_any sh hl, shaped_object_any (sh.again root draws) hl']
    exact .of_matched hentries h.entries
  · -- no name is written twice, so that all fields written are kept
    have hmatched := shapedEntries_reordered hvalue h hbuilds
    have hnodup : (Table.names (sh.shapedEntries fields wildcard place)).Nodup :=
      sh.nodup_shapedEntries hn hentries
    have hnodup' := (names_perm_of_matched hmatched).nodup_iff.mp hnodup
    rw [shaped_object sh hl hany, shaped_object (sh.again root draws) hl' hany,
      Table.ofEntries_of_nodup hnodup, Table.ofEntries_of_nodup hnodup']
    exact .of_matched hnodup hmatched

/-- **Reordered values are shaped into reordered values**, wherever they stand. -/
theorem shaped_reordered (hignores : sh.registry.IgnoresOrder) (hroot : sh.root.Reordered root)
    {schema : Tree} (hschema : schema.Proper) :
    BuildsReordered sh (sh.again root draws) schema := by
  induction hschema with
  | scalar optional type declared =>
    intro place place' _ h
    cases hl : leavesOut sh.includeOptional optional place with
    | true => exact shaped_reordered_of_leavesOut h hl
    | false => exact shaped_scalar_reordered hignores hroot h hl
  | @array optional parts hparts _ ih =>
    intro place place' hvalue h
    cases hl : leavesOut sh.includeOptional optional place with
    | true => exact shaped_reordered_of_leavesOut h hl
    | false => exact shaped_array_reordered hparts hvalue h hl ih
  | @object optional fields wildcard hn _ _ ih ih' =>
    intro place place' hvalue h
    cases hl : leavesOut sh.includeOptional optional place with
    | true => exact shaped_reordered_of_leavesOut h hl
    | false =>
      refine shaped_object_reordered hn hvalue h hl fun t ht => ?_
      rcases ht with ht | ht
      · obtain ⟨f, hf, rfl⟩ := List.mem_map.mp ht
        exact ih f hf
      · exact ih' t ht

end Shaper

/-! ### Whole values -/

/-- **The order of fields decides on no verdict.**  Two documents that are equal but for
the order of fields are validated under a compiled schema whose types are known, and which
do not look at that order.  The records of one are those of the other in some order, and
in the same order if the schema has no wildcard.  The two are shaped into values that are
equal but for the order of fields. -/
theorem observed_reordered {s : FlatSchema} {schema : Arena} (hs : compile s = .ok schema)
    {registry : Registry} (hknown : registry.ensureKnown schema.types = .ok ())
    (hignores : registry.IgnoresOrder) {v v' : Value} (hv : v.Proper) (hv' : v.Reordered v')
    (pathRoot : String) :
    (∃ records records', (validate v schema registry pathRoot).answer = .ok records ∧
      (validate v' schema registry pathRoot).answer = .ok records' ∧ records.Perm records' ∧
      (schema.tree.IsClosed → records = records')) ∧
    ∀ includeOptional draws draws',
      (shape v schema registry includeOptional draws).answer.Reordered
        (shape v' schema registry includeOptional draws').answer := by
  have hplace : ∀ pathRoot, Place.Reordered ⟨some v, ⟨pathRoot, []⟩, none⟩
      ⟨some v', ⟨pathRoot, []⟩, none⟩ := fun _ => ⟨rfl, .some hv', .none⟩
  have hstart : Position.Reordered (.start schema.tree v pathRoot)
      (.start schema.tree v' pathRoot) := ⟨rfl, hplace pathRoot⟩
  constructor
  · refine ⟨_, _, Position.answer_validate_eq hknown v pathRoot,
      Position.answer_validate_eq hknown v' pathRoot, ?_, fun hclosed => ?_⟩
    · -- the positions of the two walks match, and matching positions have the same record
      have hwalks := Position.matched_preorder (fun _ _ h => Position.Reordered.next h) hstart
      exact hwalks.filterMap_perm fun _ _ h => h.record?_eq hignores hv'
    · have hwalks := Position.forall₂_preorder
        (fun _ _ h => Position.Reordered.next_of_closed h.1 h.2) ⟨hclosed, hstart⟩
      exact filterMap_eq_of_forall₂ hwalks fun _ _ h => h.2.record?_eq hignores hv'
  · intro includeOptional draws draws'
    let sh : Shaper := ⟨registry, v, includeOptional, draws⟩
    have hvalue : ∀ w ∈ (some v), w.Proper := by
      rintro _ ⟨⟩
      exact hv
    have hbuilds : Shaper.BuildsReordered sh (sh.again v' draws') schema.tree :=
      Shaper.shaped_reordered hignores hv' (proper_of_compile hs)
    exact hbuilds hvalue (hplace Path.defaultRoot)

/-- The schema `{id:own,list:[{*:own}]}`, flat and compiled. -/
def rosterFlat : FlatSchema :=
  ⟨['2'], ["{*:own}".toList, "[0]".toList, "{id:own,list:1}".toList], []⟩

@[inherit_doc rosterFlat] def rosterSchema : Arena where
  nodes := [.scalar false "own" none, .scalar false "own" none, .object false [] (some 1),
    .array false [2], .object false [("id", 0), ("list", 3)] none]
  root := 4

/-- The fields of an item of which one is as it should be. -/
def rosterFields : List (String × Value) := [("p", .str "x"), ("q", .str "y"), ("r", .null)]

/-- A document, and the same one with its fields in another order. -/
def rosterValue : Value := .obj [("id", .str "x"), ("list", .arr [.obj rosterFields])]

@[inherit_doc rosterValue] def turnedValue : Value :=
  .obj [("list", .arr [.obj rosterFields.reverse]), ("id", .str "x")]

theorem reordered_turnedValue : rosterValue.Reordered turnedValue := by
  have hitem : (Value.obj rosterFields).Reordered (.obj rosterFields.reverse) := by
    refine .obj (by decide) rfl ?_ (List.reverse_perm _).symm
    exact List.forall₂_same.mpr fun v _ => .refl v
  have hlist : (Value.arr [.obj rosterFields]).Reordered (.arr [.obj rosterFields.reverse]) :=
    .arr (.cons hitem .nil)
  have hvalues : List.Forall₂ Value.Reordered [.str "x", .arr [.obj rosterFields]]
      [.str "x", .arr [.obj rosterFields.reverse]] := .cons (.refl _) (.cons hlist .nil)
  exact @Value.Reordered.obj _ [("id", .str "x"), ("list", .arr [.obj rosterFields.reverse])] _
    (by decide) rfl hvalues (.swap _ _ _)

theorem ignoresOrder_ownTypes : ownTypes.IgnoresOrder := by
  refine ⟨?_, hasFixedSamples_ownTypes⟩
  intro name type h path v v' root root' parent parent' hv hroot _
  have hmem := Table.mem_of_lookup_eq_some h
  simp only [ownTypes, List.mem_singleton, Prod.mk.injEq] at hmem
  obtain ⟨-, rfl⟩ := hmem
  have hid := hroot.get? "id"
  simp only [TypeDef.check]
  generalize root.get? "id" = x at hid ⊢
  generalize root'.get? "id" = x' at hid ⊢
  cases hv with
  | refl =>
    cases hid with
    | none => rfl
    | some hid =>
      -- a text is the same as a text only, for which there is nothing to reorder
      cases v with
      | str s => cases hid <;> rfl
      | _ => rfl
  | arr _ => rfl
  | obj _ _ _ _ => rfl

theorem observed_reordered_turnedValue :
    (∃ records records', (validate rosterValue rosterSchema ownTypes "doc").answer = .ok records ∧
      (validate turnedValue rosterSchema ownTypes "doc").answer = .ok records' ∧
      records.Perm records') ∧
    (shape rosterValue rosterSchema ownTypes false fun _ => 0).answer.Reordered
      (shape turnedValue rosterSchema ownTypes false fun _ => 1).answer := by
  have hcompile : compile rosterFlat = .ok rosterSchema := by decide +kernel
  have hknown : ownTypes.ensureKnown rosterSchema.types = .ok () := by decide +kernel
  have hproper : rosterValue.Proper := by
    refine .obj (by decide) ?_
    simp only [List.forall_mem_cons]
    refine ⟨.str _, .arr (List.forall_mem_singleton.mpr ?_), List.forall_mem_nil _⟩
    refine .obj (by decide) ?_
    simp only [rosterFields, List.forall_mem_cons]
    exact ⟨.str _, .str _, .null, List.forall_mem_nil _⟩
  obtain ⟨⟨records, records', hanswer, hanswer', hperm, -⟩, hshaped⟩ := observed_reordered hcompile
    hknown ignoresOrder_ownTypes hproper reordered_turnedValue "doc"
  exact ⟨⟨records, records', hanswer, hanswer', hperm⟩, hshaped false _ _⟩

end TerseSchema
