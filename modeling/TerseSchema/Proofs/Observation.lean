import TerseSchema.Proofs.Idempotence
import TerseSchema.Proofs.Records

/-!
# What a schema does not look at

A schema looks at the fields that it declares and, under a wildcard, at all others.
A declared field that is `null` is as good as missing, and the keys that are neither
declared nor covered may be there or not.  Two values that differ in no more than that
have the same records, and are shaped into the same value.

Both are statements about two walks at once.  One step takes two positions that are
alike to positions that are alike, pair by pair (`Position.Alike.next`); what is found
at them is the same.

## Main definitions

* `Tree.Alike` — two values differ only where a schema does not look.
* `Position.Alike` — the same for the positions of two walks.

## Main results

* `Position.Alike.records_eq` — **walks over like values have the same records.**
* `Shaper.shaped_eq_of_alike` — **like values are shaped into the same value.**
* `observed_alike` — the two, for whole values.
-/

namespace TerseSchema

/-! ### Like values -/

/-- Nothing is there, or `null`. -/
def Absent (x : Option Value) : Prop := ∀ v ∈ x, v = .null

/-- Two values, which may be missing, differ only where a schema does not look.  They
are the same, or both absent; or they are arrays whose items are alike, or objects
whose declared fields are alike and, under a wildcard, the others as well.  An object
of which the schema says nothing is not looked at, but `whole` asks that it be the
same nevertheless. -/
inductive Tree.Alike (whole : Bool) : Tree → Option Value → Option Value → Prop
  | same (t : Tree) (x : Option Value) : Alike whole t x x
  /-- `null` in one value, missing in the other. -/
  | absent {t : Tree} {x x' : Option Value} : Absent x → Absent x' → Alike whole t x x'
  | array {optional : Bool} {parts : List Tree} {items items' : List Value} :
      items.length = items'.length →
      (∀ i t, nth parts i = some t → Alike whole t items[i]? items'[i]?) →
      Alike whole (.array optional parts) (some (.arr items)) (some (.arr items'))
  /-- Without a wildcard, the fields that are not declared may be any. -/
  | object {optional : Bool} {fields : List (String × Tree)} {wildcard : Option Tree}
      {entries entries' : List (String × Value)} :
      (∀ f ∈ fields, Alike whole f.2 (entries.lookup f.1) (entries'.lookup f.1)) →
      (wildcard.isSome →
        Table.names (undeclared fields entries) = Table.names (undeclared fields entries')) →
      (∀ t ∈ wildcard, ∀ e e',
        (e, e') ∈ (undeclared fields entries).zip (undeclared fields entries') →
        Alike whole t (some e.2) (some e'.2)) →
      (whole = true → fields = [] → wildcard = none → entries = entries') →
      Alike whole (.object optional fields wildcard) (some (.obj entries)) (some (.obj entries'))

variable {whole : Bool} {place place' : Place}

theorem Place.present_eq_none_of_absent (h : Absent place.value) : place.present = none := by
  cases hvalue : place.value with
  | none => rw [Place.present, hvalue, Option.filter_none]
  | some v => exact Place.present_of_null (hvalue.trans (congrArg some (h v hvalue)))

/-- Two lists have the same image, if what stands side by side has. -/
theorem map_eq_map_iff_forall₂ {α β γ : Type} {f : α → γ} {g : β → γ} {as : List α}
    {bs : List β} : as.map f = bs.map g ↔ List.Forall₂ (fun a b => f a = g b) as bs := by
  rw [← List.forall₂_eq_eq_eq, List.forall₂_map_left_iff, List.forall₂_map_right_iff]

namespace Tree.Alike

/-- What is present at two like places: the same, or two arrays with like items, or
two objects with like fields. -/
theorem present_cases {t : Tree} (h : t.Alike whole place.value place'.value) :
    place.present = place'.present ∨
      (∃ optional parts items items', t = .array optional parts ∧
        place.present = some (.arr items) ∧ place'.present = some (.arr items') ∧
        items.length = items'.length ∧
        ∀ i t, nth parts i = some t → t.Alike whole items[i]? items'[i]?) ∨
      ∃ optional fields wildcard entries entries', t = .object optional fields wildcard ∧
        place.present = some (.obj entries) ∧ place'.present = some (.obj entries') ∧
        (∀ f ∈ fields, f.2.Alike whole (entries.lookup f.1) (entries'.lookup f.1)) ∧
        (∀ t ∈ wildcard, List.Forall₂
          (fun e e' => e.1 = e'.1 ∧ t.Alike whole (some e.2) (some e'.2))
          (undeclared fields entries) (undeclared fields entries')) ∧
        (whole = true → fields = [] → wildcard = none → entries = entries') := by
  generalize hx : place.value = x at h
  generalize hx' : place'.value = x' at h
  cases h with
  | same => exact .inl (by rw [Place.present, Place.present, hx, hx'])
  | absent ha ha' =>
    have hp : place.present = none := Place.present_eq_none_of_absent (hx ▸ ha)
    have hp' : place'.present = none := Place.present_eq_none_of_absent (hx' ▸ ha')
    exact .inl (hp.trans hp'.symm)
  | array hlength hitem =>
    have hp := Place.present_of_value hx (by simp)
    have hp' := Place.present_of_value hx' (by simp)
    exact .inr (.inl ⟨_, _, _, _, rfl, hp, hp', hlength, hitem⟩)
  | object hfields hnames hothers hwhole =>
    have hp := Place.present_of_value hx (by simp)
    have hp' := Place.present_of_value hx' (by simp)
    refine .inr (.inr ⟨_, _, _, _, _, rfl, hp, hp', hfields, fun t ht => ?_, hwhole⟩)
    -- the same names, and like values behind them
    have hnames := map_eq_map_iff_forall₂.mp (hnames (Option.isSome_iff_exists.mpr ⟨t, ht⟩))
    rw [List.forall₂_iff_zip] at hnames ⊢
    exact ⟨hnames.1, fun he => ⟨hnames.2 he, hothers t ht _ _ he⟩⟩

/-- Something is there at both of two like places, or at neither. -/
theorem isNone_present {t : Tree} (h : t.Alike whole place.value place'.value) :
    place.present.isNone = place'.present.isNone := by
  rcases h.present_cases with hp | ⟨_, _, _, _, -, hp, hp', -⟩ | ⟨_, _, _, _, _, -, hp, hp', -⟩
  · rw [hp]
  · rw [hp, hp']
    rfl
  · rw [hp, hp']
    rfl

/-- A scalar meets the same. -/
theorem present_eq_of_scalar {optional : Bool} {type : String} {declared : Option Default}
    (h : (Tree.scalar optional type declared).Alike whole place.value place'.value) :
    place.present = place'.present := by
  rcases h.present_cases with hp | ⟨_, _, _, _, ht, -⟩ | ⟨_, _, _, _, _, ht, -⟩
  · exact hp
  · cases ht
  · cases ht

/-- The items at two like places are alike. -/
theorem items {optional : Bool} {parts : List Tree}
    (h : (Tree.array optional parts).Alike whole place.value place'.value) :
    place.items.length = place'.items.length ∧
      ∀ i t, nth parts i = some t → t.Alike whole place.items[i]? place'.items[i]? := by
  rcases h.present_cases with hp | ⟨_, _, _, _, ht, hp, hp', hitems⟩ | ⟨_, _, _, _, _, ht, -⟩
  · rw [Place.items, Place.items, hp]
    exact ⟨rfl, fun i t _ => .same t _⟩
  · cases ht
    rw [place.items_of_present hp, place'.items_of_present hp']
    exact hitems
  · cases ht

/-- The fields at two like places are alike where the schema looks at them. -/
theorem entries {optional : Bool} {fields : List (String × Tree)} {wildcard : Option Tree}
    (h : (Tree.object optional fields wildcard).Alike whole place.value place'.value) :
    (∀ f ∈ fields, f.2.Alike whole (place.entries.lookup f.1) (place'.entries.lookup f.1)) ∧
      (∀ t ∈ wildcard, List.Forall₂
        (fun e e' => e.1 = e'.1 ∧ t.Alike whole (some e.2) (some e'.2))
        (undeclared fields place.entries) (undeclared fields place'.entries)) ∧
      (whole = true → fields = [] → wildcard = none → place.entries = place'.entries) := by
  rcases h.present_cases with hp | ⟨_, _, _, _, ht, -⟩ | ⟨_, _, _, _, _, ht, hp, hp', hentries⟩
  · rw [Place.entries, Place.entries, hp]
    refine ⟨fun f _ => .same f.2 _, fun t _ => ?_, fun _ _ _ => rfl⟩
    exact List.forall₂_same.mpr fun e _ => ⟨rfl, .same t _⟩
  · cases ht
  · cases ht
    rw [place.entries_of_present hp, place'.entries_of_present hp']
    exact hentries

end Tree.Alike

/-! ### Two validations side by side -/

namespace Position

/-- Two positions of the same schema and path, at which like values are met. -/
structure Alike (whole : Bool) (q q' : Position) : Prop where
  schema : q.schema = q'.schema
  path : q.place.path = q'.place.path
  value : q.schema.Alike whole q.place.value q'.place.value

/-- Like positions are one schema at places of one path. -/
theorem Alike.places {whole : Bool} {q q' : Position} (h : Alike whole q q') :
    ∃ schema place place', q = ⟨schema, place⟩ ∧ q' = ⟨schema, place'⟩ ∧
      place.path = place'.path ∧ schema.Alike whole place.value place'.value := by
  obtain ⟨schema, place⟩ := q
  obtain ⟨schema', place'⟩ := q'
  obtain rfl : schema = schema' := h.schema
  exact ⟨schema, place, place', rfl, rfl, h.path, h.value⟩

/-- The positions that an array leads to, whatever is there. -/
theorem next_array {optional : Bool} {parts : List Tree} {place : Place} :
    next ⟨.array optional parts, place⟩ = place.items.zipIdx.flatMap fun (v, i) =>
      ((nth parts i).map fun t => ⟨t, place.item i (some v)⟩).toList := by
  rw [Place.items]
  cases hp : place.present with
  | none => simp [next, hp]
  | some v => cases v <;> simp [next, hp, Value.items?]

/-- The positions that an object leads to; none unless an object is there. -/
theorem next_object {optional : Bool} {fields : List (String × Tree)} {wildcard : Option Tree}
    {place : Place} : next ⟨.object optional fields wildcard, place⟩ =
      if (place.present.bind Value.fields?).isNone then []
      else
        (fields.map fun f => ⟨f.2, place.field f.1 (place.entries.lookup f.1)⟩) ++
          wildcard.toList.flatMap fun t =>
            (undeclared fields place.entries).map fun e => ⟨t, place.field e.1 (some e.2)⟩ := by
  rw [Place.entries]
  cases hp : place.present with
  | none => simp [next, hp]
  | some v => cases v <;> simp [next, hp, Value.fields?]

theorem next_alike_array {optional : Bool} {parts : List Tree} (hpath : place.path = place'.path)
    (h : (Tree.array optional parts).Alike whole place.value place'.value) :
    List.Forall₂ (Alike whole) (next ⟨.array optional parts, place⟩)
      (next ⟨.array optional parts, place'⟩) := by
  obtain ⟨hlength, hitem⟩ := h.items
  have hzip : List.Forall₂ (fun a b => a.2 = b.2 ∧ place.items[a.2]? = some a.1 ∧
      place'.items[b.2]? = some b.1) place.items.zipIdx place'.items.zipIdx := by
    refine List.forall₂_iff_get.mpr ⟨by simpa using hlength, fun i hi hi' => ?_⟩
    simp
  rw [next_array, next_array]
  refine List.rel_flatMap hzip ?_
  rintro ⟨v, i⟩ ⟨v', _⟩ ⟨rfl, hv, hv'⟩
  show List.Forall₂ (Alike whole) ((nth parts i).map fun t => ⟨t, place.item i (some v)⟩).toList
    ((nth parts i).map fun t => ⟨t, place'.item i (some v')⟩).toList
  cases ht : nth parts i with
  | none => exact .nil
  | some t =>
    refine .cons ⟨rfl, ?_, ?_⟩ .nil
    · rw [Place.item, Place.item, hpath]
    · have hpart := hitem i t ht
      rw [hv, hv'] at hpart
      exact hpart

theorem next_alike_object {optional : Bool} {fields : List (String × Tree)}
    {wildcard : Option Tree} (hpath : place.path = place'.path)
    (h : (Tree.object optional fields wildcard).Alike whole place.value place'.value) :
    List.Forall₂ (Alike whole) (next ⟨.object optional fields wildcard, place⟩)
      (next ⟨.object optional fields wildcard, place'⟩) := by
  have hkind : (place.present.bind Value.fields?).isNone =
      (place'.present.bind Value.fields?).isNone := by
    rcases h.present_cases with hp | ⟨_, _, _, _, ht, -⟩ | ⟨_, _, _, _, _, -, hp, hp', -⟩
    · rw [hp]
    · cases ht
    · rw [hp, hp']
      rfl
  obtain ⟨hfields, hothers, -⟩ := h.entries
  rw [next_object, next_object, hkind]
  split
  · exact .nil
  · refine List.rel_append ?_ ?_
    · rw [List.forall₂_map_left_iff, List.forall₂_map_right_iff, List.forall₂_same]
      intro f hf
      refine ⟨rfl, ?_, hfields f hf⟩
      rw [Place.field, Place.field, hpath]
    · cases wildcard with
      | none => exact .nil
      | some t =>
        rw [Option.toList_some, List.flatMap_singleton, List.flatMap_singleton,
          List.forall₂_map_left_iff, List.forall₂_map_right_iff]
        refine (hothers t rfl).imp fun e e' he => ⟨rfl, ?_, he.2⟩
        rw [Place.field, Place.field, hpath, he.1]

/-- **One step of two walks**: like positions lead to like positions, pair by pair. -/
theorem Alike.next {q q' : Position} (h : Alike whole q q') :
    List.Forall₂ (Alike whole) q.next q'.next := by
  obtain ⟨schema, place, place', rfl, rfl, hpath, hvalue⟩ := h.places
  cases schema with
  | scalar optional type declared => exact .nil
  | array optional parts => exact next_alike_array hpath hvalue
  | object optional fields wildcard => exact next_alike_object hpath hvalue

/-- The records of a scalar that is there depend on the value and the path only. -/
theorem records_checked_eq {registry : Registry} (hsteady : registry.IsSteady) (type : String)
    (v : Value) {ctx ctx' : Context} (hpath : ctx.path = ctx'.path) :
    (checked registry type v ctx).filterMap Finding.record? =
      (checked registry type v ctx').filterMap Finding.record? := by
  have hcheck : registry.check type v ctx = registry.check type v ctx' := by
    rw [Registry.check, Registry.check]
    cases hget : registry.get? type with
    | none => rfl
    | some known => simp only [hsteady.check type known hget v ctx ctx']
  have hcalls : ∀ calls : List Call, (calls.map Finding.called).filterMap Finding.record? = [] := by
    intro calls
    simp [Finding.record?]
  rw [checked, checked, List.filterMap_append, List.filterMap_append, hcalls, hcalls, hcheck, hpath]

/-- What is found at a position, its calls apart, depends on what is there and on the
path only. -/
theorem records_findings_eq {registry : Registry} (hsteady : registry.IsSteady)
    (root root' : Value) (schema : Tree) (hpath : place.path = place'.path)
    (hp : place.present = place'.present) :
    (findings registry root ⟨schema, place⟩).filterMap Finding.record? =
      (findings registry root' ⟨schema, place'⟩).filterMap Finding.record? := by
  cases hpresent : place'.present with
  | none => cases schema <;> simp only [findings, hp, hpresent, missing, hpath]
  | some v =>
    cases schema with
    | scalar optional type declared =>
      simp only [findings, hp, hpresent]
      exact records_checked_eq hsteady type v hpath
    | array optional parts => simp only [findings, hp, hpresent, hpath]
    | object optional fields wildcard => simp only [findings, hp, hpresent, hpath]

/-- Like positions have the same records of their own. -/
theorem Alike.findings_eq {registry : Registry} (hsteady : registry.IsSteady) (root root' : Value)
    {q q' : Position} (h : Alike whole q q') :
    (q.findings registry root).filterMap Finding.record? =
      (q'.findings registry root').filterMap Finding.record? := by
  obtain ⟨schema, place, place', rfl, rfl, hpath, hvalue⟩ := h.places
  rcases hvalue.present_cases with hp | ⟨_, _, items, items', ht, hp, hp', -⟩ |
    ⟨_, _, _, entries, entries', ht, hp, hp', -⟩
  · exact records_findings_eq hsteady root root' schema hpath hp
  · -- two arrays are as they should be, and so are two objects
    obtain rfl : schema = _ := ht
    simp only [findings, hp, hp', Value.items?, Option.isSome_some, if_true]
  · obtain rfl : schema = _ := ht
    simp only [findings, hp, hp', Value.fields?, Option.isSome_some, if_true]

/-- **Two walks have the same records** from like positions on. -/
theorem Alike.records_eq {registry : Registry} (hsteady : registry.IsSteady) (root root' : Value)
    {q q' : Position} (h : Alike whole q q') :
    (q.validated registry root).filterMap Finding.record? =
      (q'.validated registry root').filterMap Finding.record? := by
  induction q using Position.induct generalizing q' with
  | h q ih =>
    have hmem : List.Forall₂ (fun a b => a ∈ q.next ∧ Alike whole a b) q.next q'.next :=
      (List.forall₂_and_left _ _).mpr ⟨fun a ha => ha, h.next⟩
    have hnext : (q.next.map fun a => (a.validated registry root).filterMap Finding.record?) =
        q'.next.map fun b => (b.validated registry root').filterMap Finding.record? := by
      refine map_eq_map_iff_forall₂.mpr (hmem.imp fun a b hab => ?_)
      exact ih a (mem_next.mp hab.1) hab.2
    rw [validated_eq, validated_eq, List.filterMap_append, List.filterMap_append,
      List.filterMap_flatMap, List.filterMap_flatMap, h.findings_eq hsteady root root',
      List.flatMap_def, List.flatMap_def, hnext]

end Position

/-! ### Two shapings side by side -/

namespace Shaper

variable {sh : Shaper} {root : Value} {draws : Path → Nat}

/-- Where nothing is built for a value, nothing is for one that is alike. -/
theorem shaped_eq_of_leavesOut {t : Tree} (h : t.Alike whole place.value place'.value)
    (hl : leavesOut sh.includeOptional t.optional place = true) :
    (sh.again root draws).shaped ⟨t, place'⟩ = sh.shaped ⟨t, place⟩ := by
  have hl' : leavesOut (sh.again root draws).includeOptional t.optional place' = true :=
    (leavesOut_congr h.isNone_present _ _).symm.trans hl
  rw [sh.shaped_of_leavesOut hl, (sh.again root draws).shaped_of_leavesOut hl']

theorem shaped_scalar_eq_of_alike (hsteady : sh.registry.IsSteady) {optional : Bool}
    {type : String} {declared : Option Default}
    (h : (Tree.scalar optional type declared).Alike whole place.value place'.value)
    (hl : leavesOut sh.includeOptional optional place = false) :
    (sh.again root draws).shaped ⟨.scalar optional type declared, place'⟩ =
      sh.shaped ⟨.scalar optional type declared, place⟩ := by
  have hl' : leavesOut (sh.again root draws).includeOptional optional place' = false :=
    (leavesOut_congr h.isNone_present _ _).symm.trans hl
  have hget : (sh.again root draws).registry.get? type = sh.registry.get? type := rfl
  rw [shaped_scalar (sh.again root draws) hl', shaped_scalar sh hl, h.present_eq_of_scalar, hget]
  cases hknown : sh.registry.get? type with
  | none => rfl
  | some known =>
    have hfallback := hsteady.fallback hknown declared ((sh.again root draws).draws place'.path)
      (sh.draws place.path)
    cases place'.present with
    | none => exact hfallback
    | some v =>
      simp only [shapeKnown]
      rw [hfallback, hsteady.check type known hknown v _ ⟨place.path, sh.root, place.parent⟩]

theorem shaped_array_eq_of_alike {optional : Bool} {parts : List Tree} (hparts : parts ≠ [])
    (h : (Tree.array optional parts).Alike whole place.value place'.value)
    (hl : leavesOut sh.includeOptional optional place = false)
    (hsame : ∀ t ∈ parts, ∀ {place place' : Place}, t.Alike whole place.value place'.value →
      (sh.again root draws).shaped ⟨t, place'⟩ = sh.shaped ⟨t, place⟩) :
    (sh.again root draws).shaped ⟨.array optional parts, place'⟩ =
      sh.shaped ⟨.array optional parts, place⟩ := by
  have hl' : leavesOut (sh.again root draws).includeOptional optional place' = false :=
    (leavesOut_congr h.isNone_present _ _).symm.trans hl
  obtain ⟨hitems, halike⟩ := h.items
  obtain ⟨built', built, hbuilt', hbuilt, heq⟩ := forall₂_shaped_arrays (R := Eq) hl' hl hparts
    hitems.symm fun i t ht => hsame t (List.mem_of_getElem? ht) (halike i t ht)
  rw [List.forall₂_eq_eq_eq] at heq
  rw [hbuilt', hbuilt, heq]

theorem shaped_object_eq_of_alike {optional : Bool} {fields : List (String × Tree)}
    {wildcard : Option Tree}
    (h : (Tree.object optional fields wildcard).Alike true place.value place'.value)
    (hl : leavesOut sh.includeOptional optional place = false)
    (hsame : ∀ t, t ∈ fields.map Prod.snd ∨ t ∈ wildcard → ∀ {place place' : Place},
      t.Alike true place.value place'.value →
      (sh.again root draws).shaped ⟨t, place'⟩ = sh.shaped ⟨t, place⟩) :
    (sh.again root draws).shaped ⟨.object optional fields wildcard, place'⟩ =
      sh.shaped ⟨.object optional fields wildcard, place⟩ := by
  have hl' : leavesOut (sh.again root draws).includeOptional optional place' = false :=
    (leavesOut_congr h.isNone_present _ _).symm.trans hl
  obtain ⟨hfields, hothers, hwhole⟩ := h.entries
  by_cases hany : fields = [] ∧ wildcard = none
  · -- the object is kept as it is, so it has to be the same
    obtain ⟨rfl, rfl⟩ := hany
    rw [shaped_object_any sh hl, shaped_object_any (sh.again root draws) hl', hwhole rfl rfl rfl]
  · have hknown : (fields.map fun f => (f.1, (sh.again root draws).shaped
          ⟨f.2, place'.field f.1 (place'.entries.lookup f.1)⟩)) =
        fields.map fun f => (f.1, sh.shaped ⟨f.2, place.field f.1 (place.entries.lookup f.1)⟩) := by
      refine List.map_congr_left fun f hf => Prod.ext rfl ?_
      exact hsame f.2 (.inl (List.mem_map_of_mem hf)) (hfields f hf)
    have hrest : (sh.again root draws).shapedOthers fields wildcard place' =
        sh.shapedOthers fields wildcard place := by
      rw [shapedOthers, shapedOthers]
      cases wildcard with
      | none => rfl
      | some t =>
        rw [Option.toList_some, List.flatMap_singleton, List.flatMap_singleton]
        refine (map_eq_map_iff_forall₂.mpr ((hothers t rfl).imp fun e e' he => ?_)).symm
        exact Prod.ext he.1 (hsame t (.inr rfl) he.2).symm
    have hentries : (sh.again root draws).shapedEntries fields wildcard place' =
        sh.shapedEntries fields wildcard place := congrArg₂ (· ++ ·) hknown hrest
    rw [shaped_object sh hl hany, shaped_object (sh.again root draws) hl' hany, hentries]

/-- **Like values are shaped into the same value**, wherever they stand. -/
theorem shaped_eq_of_alike (hsteady : sh.registry.IsSteady) {schema : Tree}
    (hschema : schema.Proper) (h : schema.Alike true place.value place'.value) :
    (sh.again root draws).shaped ⟨schema, place'⟩ = sh.shaped ⟨schema, place⟩ := by
  induction hschema generalizing place place' with
  | scalar optional type declared =>
    cases hl : leavesOut sh.includeOptional optional place with
    | true => exact shaped_eq_of_leavesOut h hl
    | false => exact shaped_scalar_eq_of_alike hsteady h hl
  | @array optional parts hparts _ ih =>
    cases hl : leavesOut sh.includeOptional optional place with
    | true => exact shaped_eq_of_leavesOut h hl
    | false => exact shaped_array_eq_of_alike hparts h hl fun t ht _ _ => ih t ht
  | @object optional fields wildcard _ _ _ ih ih' =>
    cases hl : leavesOut sh.includeOptional optional place with
    | true => exact shaped_eq_of_leavesOut h hl
    | false =>
      refine shaped_object_eq_of_alike h hl fun t ht _ _ h => ?_
      rcases ht with ht | ht
      · obtain ⟨f, hf, rfl⟩ := List.mem_map.mp ht
        exact ih f hf h
      · exact ih' t ht h

end Shaper

/-! ### Whole values -/

/-- **The engines observe the declared part of a value only.**  Two values that differ
where a schema does not look have the same records, and are shaped into the same
value, if in addition the objects of which the schema says nothing are the same. -/
theorem observed_alike {s : FlatSchema} {schema : Arena} (hs : compile s = .ok schema)
    {registry : Registry} (hknown : registry.ensureKnown schema.types = .ok ())
    (hsteady : registry.IsSteady) :
    (∀ v v', schema.tree.Alike false (some v) (some v') → ∀ pathRoot, ∃ records,
      (validate v schema registry pathRoot).answer = .ok records ∧
        (validate v' schema registry pathRoot).answer = .ok records) ∧
    ∀ v v', schema.tree.Alike true (some v) (some v') → ∀ includeOptional draws draws',
      (shape v schema registry includeOptional draws).answer =
        (shape v' schema registry includeOptional draws').answer := by
  constructor
  · intro v v' h pathRoot
    have halike : Position.Alike false (.start schema.tree v pathRoot)
        (.start schema.tree v' pathRoot) := ⟨rfl, rfl, h⟩
    refine ⟨_, Position.answer_validate hknown v pathRoot, ?_⟩
    rw [Position.answer_validate hknown v' pathRoot, halike.records_eq hsteady v v']
  · intro v v' h includeOptional draws draws'
    let sh : Shaper := ⟨registry, v, includeOptional, draws⟩
    have hsame : (sh.again v' draws').shaped (.start schema.tree v' Path.defaultRoot) =
        sh.shaped (.start schema.tree v Path.defaultRoot) :=
      Shaper.shaped_eq_of_alike hsteady (proper_of_compile hs) h
    exact hsame.symm

/-- The schema `{a:?even,b:{},c:[{d:void}]}`, flat and compiled. -/
def selectiveFlat : FlatSchema :=
  ⟨['3'], ["{}".toList, "{d:void}".toList, "[1]".toList, "{a:?even,b:0,c:2}".toList], []⟩

@[inherit_doc selectiveFlat] def selectiveSchema : Arena where
  nodes := [.scalar true "even" none, .object false [] none, .scalar false "void" none,
    .object false [("d", 2)] none, .array false [3],
    .object false [("a", 0), ("b", 1), ("c", 4)] none]
  root := 5

/-- The fields of a value, not all of which the schema looks at. -/
def verboseFields : List (String × Value) :=
  [("z", .bool true), ("a", .null), ("b", .obj [("k", .int 1)]),
    ("c", .arr [.obj [("d", .int 2), ("e", .int 3)]])]

/-- The fields of another value, which looks the same to the schema. -/
def plainFields : List (String × Value) :=
  [("c", .arr [.obj [("d", .int 2)]]), ("b", .obj [("k", .int 1)])]

theorem alike_selectiveSchema (whole : Bool) :
    selectiveSchema.tree.Alike whole (some (.obj verboseFields)) (some (.obj plainFields)) := by
  have htree : selectiveSchema.tree = .object false [("a", .scalar true "even" none),
      ("b", .object false [] none),
      ("c", .array false [.object false [("d", .scalar false "void" none)] none])] none := rfl
  rw [htree]
  refine .object (fun f hf => ?_) (by simp) (by simp) (by simp)
  simp only [List.mem_cons, List.not_mem_nil, or_false] at hf
  rcases hf with rfl | rfl | rfl
  · -- `null` in one, missing in the other
    have hverbose : verboseFields.lookup "a" = some .null := by decide
    have hplain : plainFields.lookup "a" = none := by decide
    rw [hverbose, hplain]
    exact .absent (by simp [Absent]) (by simp [Absent])
  · have hkept : verboseFields.lookup "b" = plainFields.lookup "b" := by decide
    rw [hkept]
    exact .same _ _
  · -- the item has a field more
    refine .array rfl fun i t ht => ?_
    obtain rfl : t = .object false [("d", .scalar false "void" none)] none := by
      simpa using List.mem_of_getElem? ht
    cases i with
    | zero =>
      refine .object (fun f hf => ?_) (by simp) (by simp) (by simp)
      simp only [List.mem_cons, List.not_mem_nil, or_false] at hf
      subst hf
      exact .same _ _
    | succ i => exact .same _ _

theorem observed_alike_selectiveSchema : ∃ records,
    (validate (.obj verboseFields) selectiveSchema stubbornTypes "json").answer = .ok records ∧
      (validate (.obj plainFields) selectiveSchema stubbornTypes "json").answer = .ok records ∧
      (shape (.obj verboseFields) selectiveSchema stubbornTypes true fun _ => 0).answer =
        (shape (.obj plainFields) selectiveSchema stubbornTypes true fun _ => 1).answer := by
  have hcompile : compile selectiveFlat = .ok selectiveSchema :=
    compile_of_groups [.object [], .object [("d", ⟨false, .scalar "void" none⟩)],
      .array [⟨false, .reference 1⟩],
      .object [("a", ⟨true, .scalar "even" none⟩), ("b", ⟨false, .reference 0⟩),
        ("c", ⟨false, .reference 2⟩)]] ⟨false, .reference 3⟩
      (by decide) (by decide) (by decide)
  have hknown : stubbornTypes.ensureKnown selectiveSchema.types = .ok () := by decide
  obtain ⟨hrecords, hshaped⟩ := observed_alike hcompile hknown isSteady_stubbornTypes
  obtain ⟨records, hverbose, hplain⟩ := hrecords _ _ (alike_selectiveSchema false) "json"
  exact ⟨records, hverbose, hplain, hshaped _ _ (alike_selectiveSchema true) true _ _⟩

end TerseSchema
