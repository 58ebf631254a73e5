import TerseSchema.Proofs.Shaped

/-!
# Shaping twice is shaping once

A shaped value is shaped into itself: what shaping builds for a schema it builds
again when it meets it, at whatever place.  A default may be rejected by its own
type or be cast to `null`; it is then replaced by itself.

## Main definitions

* `Registry.HasFixedSamples` — samples do not vary.
* `Registry.IsSteady` — checks look at the value only, and samples do not vary.
* `Shaper.again` — another call with the same types and options.

## Main results

* `Shaper.shaped_again` — **what was built is built again.**
* `shape_shape` — **shaping twice is shaping once.**
-/

namespace TerseSchema

/-- Samples do not vary. -/
def Registry.HasFixedSamples (registry : Registry) : Prop :=
  ∀ name type, registry.get? name = some type → ∀ draw draw', type.sample draw = type.sample draw'

theorem Registry.HasFixedSamples.fallback {registry : Registry} (h : registry.HasFixedSamples)
    {name : String} {type : TypeDef} (hget : registry.get? name = some type)
    (declared : Option Default) (draw draw' : Nat) :
    fallback type declared draw = fallback type declared draw' := by
  cases declared with
  | none => exact h name type hget draw draw'
  | some d => rfl

/-- Checks look at the value only, and samples do not vary. -/
structure Registry.IsSteady (registry : Registry) : Prop where
  check : ∀ name type, registry.get? name = some type → ∀ v ctx ctx',
    type.check v ctx = type.check v ctx'
  sample : ∀ name type, registry.get? name = some type → ∀ draw draw',
    type.sample draw = type.sample draw'

theorem Registry.IsSteady.fallback {registry : Registry} (h : registry.IsSteady) {name : String}
    {type : TypeDef} (hget : registry.get? name = some type) (declared : Option Default)
    (draw draw' : Nat) : fallback type declared draw = fallback type declared draw' :=
  HasFixedSamples.fallback h.sample hget declared draw draw'

namespace Shaper

/-- Another call with the same types and options. -/
def again (sh : Shaper) (root : Value) (draws : Path → Nat) : Shaper := { sh with root, draws }

variable {sh : Shaper} {root : Value} {draws : Path → Nat} {place place' : Place}

/-! ### Scalars -/

/-- What was left out is left out again. -/
theorem shaped_again_of_leavesOut {schema : Tree}
    (hl : leavesOut sh.includeOptional schema.optional place = true)
    (hvalue : place'.value = some (sh.shaped ⟨schema, place⟩)) :
    (sh.again root draws).shaped ⟨schema, place'⟩ = sh.shaped ⟨schema, place⟩ := by
  have hnull : sh.shaped ⟨schema, place⟩ = .null := sh.shaped_of_leavesOut hl
  have hp : place'.present = none := Place.present_of_null (hvalue.trans (congrArg some hnull))
  have hl' : leavesOut (sh.again root draws).includeOptional schema.optional place' = true :=
    leavesOut_iff.mpr ⟨hp, (leavesOut_iff.mp hl).2⟩
  rw [hnull, shaped_of_leavesOut _ hl']

/-- What is built of a scalar of a known type is a value that the type accepts, or the
fallback. -/
theorem shapeKnown_cases (type : TypeDef) (name : String) (declared : Option Default) (draw : Nat)
    (value : Option Value) (ctx : Context) :
    (∃ v, value = some v ∧ type.check v ctx = true ∧
        (shapeKnown type name declared draw value ctx).answer = v) ∨
      (shapeKnown type name declared draw value ctx).answer = fallback type declared draw := by
  cases value with
  | none => exact .inr rfl
  | some v =>
    by_cases hc : type.check v ctx = true
    · exact .inl ⟨v, rfl, hc, if_pos hc⟩
    · exact .inr (if_neg hc)

theorem shapeUnknown_ne_null (declared : Option Default) (place : Place) :
    shapeUnknown declared place.present ≠ .null := by
  cases hp : place.present with
  | none => exact Value.noConfusion
  | some v => exact Place.ne_null_of_present hp

theorem shaped_scalar_again (hsteady : sh.registry.IsSteady) {optional : Bool} {type : String}
    {declared : Option Default} (hl : leavesOut sh.includeOptional optional place = false)
    (hvalue : place'.value = some (sh.shaped ⟨.scalar optional type declared, place⟩)) :
    (sh.again root draws).shaped ⟨.scalar optional type declared, place'⟩ =
      sh.shaped ⟨.scalar optional type declared, place⟩ := by
  have hshaped := @shaped_scalar sh optional type declared place hl
  generalize sh.shaped ⟨.scalar optional type declared, place⟩ = w at hshaped hvalue
  -- the second call sees `w`, unless it is `null`
  have hagain : w ≠ .null → place'.present = some w ∧
      leavesOut (sh.again root draws).includeOptional optional place' = false := by
    intro hw
    have hp := Place.present_of_value hvalue hw
    exact ⟨hp, leavesOut_of_present hp⟩
  cases hget : sh.registry.get? type with
  | none =>
    rw [hget] at hshaped
    have hget' : (sh.again root draws).registry.get? type = none := hget
    obtain ⟨hp, hl'⟩ := hagain (hshaped ▸ shapeUnknown_ne_null declared place)
    rw [shaped_scalar _ hl', hget', hp]
    rfl
  | some known =>
    rw [hget] at hshaped
    have hget' : (sh.again root draws).registry.get? type = some known := hget
    obtain ⟨v, hv, hc, hanswer⟩ | hanswer :=
      shapeKnown_cases known type declared (sh.draws place.path) place.present
        ⟨place.path, sh.root, place.parent⟩
    · -- an accepted value is accepted again
      obtain rfl : w = v := hshaped.trans hanswer
      obtain ⟨hp, hl'⟩ := hagain (Place.ne_null_of_present hv)
      rw [shaped_scalar _ hl', hget', hp]
      exact if_pos ((hsteady.check type known hget w _ _).trans hc)
    · have hfallback : w = fallback known declared (sh.draws place.path) := hshaped.trans hanswer
      cases hl' : leavesOut (sh.again root draws).includeOptional optional place' with
      | true =>
        rw [shaped_of_leavesOut _ hl', Place.eq_null_of_absent hvalue (leavesOut_iff.mp hl').1]
      | false =>
        rw [shaped_scalar _ hl', hget']
        obtain ⟨v, hv, -, hanswer'⟩ | hanswer' :=
          shapeKnown_cases known type declared ((sh.again root draws).draws place'.path)
            place'.present ⟨place'.path, (sh.again root draws).root, place'.parent⟩
        · -- the fallback may happen to be accepted
          have hsame := (Place.value_of_present hv).symm.trans hvalue
          exact hanswer'.trans (Option.some.inj hsame)
        · rw [hfallback]
          exact hanswer'.trans (hsteady.fallback hget declared _ _)

/-! ### Groups -/

/-- The fields that shaping writes for the keys that are not declared. -/
def shapedOthers (sh : Shaper) (fields : List (String × Tree)) (wildcard : Option Tree)
    (place : Place) : List (String × Value) :=
  wildcard.toList.flatMap fun t => (undeclared fields place.entries).map fun (key, v) =>
    (key, sh.shaped ⟨t, place.field key (some v)⟩)

theorem mem_shapedOthers {fields : List (String × Tree)} {wildcard : Option Tree}
    {e : String × Value} (h : e ∈ sh.shapedOthers fields wildcard place) :
    e.1 ∉ Table.names fields ∧ ∃ t v, t ∈ wildcard ∧
      e.2 = sh.shaped ⟨t, place.field e.1 (some v)⟩ := by
  obtain ⟨t, ht, h⟩ := List.mem_flatMap.mp h
  obtain ⟨⟨key, v⟩, hv, rfl⟩ := List.mem_map.mp h
  exact ⟨(mem_undeclared.mp hv).2, t, v, Option.mem_toList.mp ht, rfl⟩

theorem names_declared_shaped (sh : Shaper) (place : Place) (fields : List (String × Tree)) :
    Table.names (fields.map fun (name, t) =>
      (name, sh.shaped ⟨t, place.field name (place.entries.lookup name)⟩)) =
      Table.names fields := by
  rw [Table.names, List.map_map]
  rfl

/-- An object has its declared fields as they are declared, and then the others. -/
theorem ofEntries_shapedEntries {fields : List (String × Tree)} (wildcard : Option Tree)
    (hn : (Table.names fields).Nodup) :
    Table.ofEntries (sh.shapedEntries fields wildcard place) =
      (fields.map fun (name, t) =>
          (name, sh.shaped ⟨t, place.field name (place.entries.lookup name)⟩)) ++
        Table.ofEntries (sh.shapedOthers fields wildcard place) := by
  have hnames := sh.names_declared_shaped place fields
  refine Table.ofEntries_append (hnames ▸ hn) fun name hname => ?_
  obtain ⟨e, he, rfl⟩ := List.mem_map.mp hname
  rw [hnames]
  exact (mem_shapedOthers he).1

/-- The keys of a shaped object that are not declared are the others. -/
theorem undeclared_shapedEntries {fields : List (String × Tree)} (wildcard : Option Tree)
    (hn : (Table.names fields).Nodup) :
    undeclared fields (Table.ofEntries (sh.shapedEntries fields wildcard place)) =
      Table.ofEntries (sh.shapedOthers fields wildcard place) := by
  have hothers : ∀ e ∈ Table.ofEntries (sh.shapedOthers fields wildcard place),
      e.1 ∉ Table.names fields :=
    fun e he => (mem_shapedOthers (Table.mem_of_mem_ofEntries he)).1
  rw [ofEntries_shapedEntries wildcard hn, undeclared_append, undeclared_eq_self hothers,
    undeclared_eq_nil fun key hkey => sh.names_declared_shaped place fields ▸ hkey, List.nil_append]

/-- Where an object was built, the declared fields and the others are built again. -/
theorem shapedEntries_again {fields : List (String × Tree)} {wildcard : Option Tree}
    (hn : (Table.names fields).Nodup)
    (hentries : place'.entries = Table.ofEntries (sh.shapedEntries fields wildcard place))
    (hagain : ∀ t, t ∈ fields.map Prod.snd ∨ t ∈ wildcard → ∀ {place place' : Place},
      place'.value = some (sh.shaped ⟨t, place⟩) →
      (sh.again root draws).shaped ⟨t, place'⟩ = sh.shaped ⟨t, place⟩) :
    (sh.again root draws).shapedEntries fields wildcard place' = place'.entries := by
  have hfields : (fields.map fun (name, t) => (name, (sh.again root draws).shaped
        ⟨t, place'.field name (place'.entries.lookup name)⟩)) =
      fields.map fun (name, t) =>
        (name, sh.shaped ⟨t, place.field name (place.entries.lookup name)⟩) := by
    refine List.map_congr_left fun f hf => Prod.ext rfl ?_
    refine hagain f.2 (.inl (List.mem_map_of_mem hf)) ?_
    rw [hentries]
    exact sh.lookup_shaped_field hn hf
  have hothers : (sh.again root draws).shapedOthers fields wildcard place' =
      Table.ofEntries (sh.shapedOthers fields wildcard place) := by
    rw [shapedOthers, hentries, undeclared_shapedEntries wildcard hn]
    cases wildcard with
    | none => rfl
    | some t =>
      rw [Option.toList_some, List.flatMap_singleton]
      have hsame : ∀ e ∈ Table.ofEntries (sh.shapedOthers fields (some t) place),
          (e.1, (sh.again root draws).shaped ⟨t, place'.field e.1 (some e.2)⟩) = e := by
        intro e he
        obtain ⟨-, t', v, ht', hw⟩ := mem_shapedOthers (Table.mem_of_mem_ofEntries he)
        obtain rfl := Option.some.inj ht'
        exact Prod.ext rfl ((hagain t (.inr rfl) (congrArg some hw)).trans hw.symm)
      exact (List.map_congr_left hsame).trans (List.map_id _)
  calc (sh.again root draws).shapedEntries fields wildcard place'
      = (fields.map fun (name, t) => (name, (sh.again root draws).shaped
          ⟨t, place'.field name (place'.entries.lookup name)⟩)) ++
          (sh.again root draws).shapedOthers fields wildcard place' := rfl
    _ = place'.entries := by
      rw [hfields, hothers, hentries, ofEntries_shapedEntries wildcard hn]

theorem shaped_array_again {optional : Bool} {parts : List Tree} (hparts : parts ≠ [])
    (hl : leavesOut sh.includeOptional optional place = false)
    (hvalue : place'.value = some (sh.shaped ⟨.array optional parts, place⟩))
    (hagain : ∀ t ∈ parts, ∀ {place place' : Place},
      place'.value = some (sh.shaped ⟨t, place⟩) →
      (sh.again root draws).shaped ⟨t, place'⟩ = sh.shaped ⟨t, place⟩) :
    (sh.again root draws).shaped ⟨.array optional parts, place'⟩ =
      sh.shaped ⟨.array optional parts, place⟩ := by
  obtain ⟨built, hbuilt, hlength, hitem⟩ := sh.shaped_array hl hparts
  rw [hbuilt] at hvalue ⊢
  have hp : place'.present = some (.arr built) := Place.present_of_value hvalue (by simp)
  have hl' : leavesOut (sh.again root draws).includeOptional optional place' = false :=
    leavesOut_of_present hp
  have hitems := place'.items_of_present hp
  -- the array is as long as its pattern already, so that no item is added
  have hfull : built.length = max place'.items.length parts.length := by rw [hitems]; omega
  have hpart : ∀ {i t w}, nth parts i = some t → built[i]? = some w →
      (sh.again root draws).shaped ⟨t, place'.item i place'.items[i]?⟩ = w := by
    intro i t w ht hw
    obtain ⟨t', ht', rfl⟩ := hitem i w hw
    obtain rfl := Option.some.inj (ht.symm.trans ht')
    rw [hitems, hw]
    exact hagain t (List.mem_of_getElem? ht) rfl
  obtain ⟨built', hbuilt', hsame⟩ :=
    (sh.again root draws).forall₂_shaped_array (R := Eq) hl' hparts hfull hpart
  rw [List.forall₂_eq_eq_eq] at hsame
  rw [hbuilt', hsame]

theorem shaped_object_again {optional : Bool} {fields : List (String × Tree)}
    {wildcard : Option Tree} (hn : (Table.names fields).Nodup)
    (hl : leavesOut sh.includeOptional optional place = false)
    (hvalue : place'.value = some (sh.shaped ⟨.object optional fields wildcard, place⟩))
    (hagain : ∀ t, t ∈ fields.map Prod.snd ∨ t ∈ wildcard → ∀ {place place' : Place},
      place'.value = some (sh.shaped ⟨t, place⟩) →
      (sh.again root draws).shaped ⟨t, place'⟩ = sh.shaped ⟨t, place⟩) :
    (sh.again root draws).shaped ⟨.object optional fields wildcard, place'⟩ =
      sh.shaped ⟨.object optional fields wildcard, place⟩ := by
  obtain ⟨built, hbuilt⟩ := sh.exists_shaped_object fields wildcard hl
  rw [hbuilt] at hvalue
  have hp : place'.present = some (.obj built) := Place.present_of_value hvalue (by simp)
  have hl' : leavesOut (sh.again root draws).includeOptional optional place' = false :=
    leavesOut_of_present hp
  have hentries := place'.entries_of_present hp
  rw [hbuilt, ← hentries]
  by_cases hany : fields = [] ∧ wildcard = none
  · obtain ⟨rfl, rfl⟩ := hany
    exact shaped_object_any _ hl'
  · rw [sh.shaped_object hl hany] at hbuilt
    have hwritten := hentries.trans (Value.obj.inj hbuilt).symm
    rw [shaped_object _ hl' hany, shapedEntries_again hn hwritten hagain, hwritten,
      Table.ofEntries_of_nodup (Table.nodup_names_ofEntries _)]

/-- **What was built is built again**, at whatever place it stands. -/
theorem shaped_again (hsteady : sh.registry.IsSteady) {schema : Tree} (hschema : schema.Proper)
    (hvalue : place'.value = some (sh.shaped ⟨schema, place⟩)) :
    (sh.again root draws).shaped ⟨schema, place'⟩ = sh.shaped ⟨schema, place⟩ := by
  induction hschema generalizing place place' with
  | scalar optional type declared =>
    cases hl : leavesOut sh.includeOptional optional place with
    | true => exact shaped_again_of_leavesOut hl hvalue
    | false => exact shaped_scalar_again hsteady hl hvalue
  | @array optional parts hparts _ ih =>
    cases hl : leavesOut sh.includeOptional optional place with
    | true => exact shaped_again_of_leavesOut hl hvalue
    | false => exact shaped_array_again hparts hl hvalue fun t ht _ _ h => ih t ht h
  | @object optional fields wildcard hn _ _ ih ih' =>
    cases hl : leavesOut sh.includeOptional optional place with
    | true => exact shaped_again_of_leavesOut hl hvalue
    | false =>
      refine shaped_object_again hn hl hvalue fun t ht _ _ h => ?_
      rcases ht with ht | ht
      · obtain ⟨f, hf, rfl⟩ := List.mem_map.mp ht
        exact ih f hf h
      · exact ih' t ht h

end Shaper

/-! ### Whole values -/

/-- **Shaping twice is shaping once**, fields in the same order.  It takes a compiled
schema and a registry whose checks look at the value only and whose samples do not
vary; types without a meaning and defaults of no use are no obstacle. -/
theorem shape_shape {s : FlatSchema} {schema : Arena} (hs : compile s = .ok schema)
    {registry : Registry} (hsteady : registry.IsSteady) (v : Value) (includeOptional : Bool)
    (draws draws' : Path → Nat) :
    (shape (shape v schema registry includeOptional draws).answer schema registry includeOptional
        draws').answer =
      (shape v schema registry includeOptional draws).answer := by
  let sh : Shaper := ⟨registry, v, includeOptional, draws⟩
  let built := sh.shaped (.start schema.tree v Path.defaultRoot)
  show (sh.again built draws').shaped (.start schema.tree built Path.defaultRoot) = built
  exact Shaper.shaped_again hsteady (proper_of_compile hs) rfl

/-- The schema `{a:?even:x,b:[even,void],*:?t:7}`, flat and compiled. -/
def stubbornFlat : FlatSchema :=
  ⟨['1'], ["[even,void]".toList, "{a:?even:x,b:0,*:?t:7}".toList], []⟩

@[inherit_doc stubbornFlat] def stubbornSchema : Arena where
  nodes := [.scalar true "even" (some (.bare "x")), .scalar false "even" none,
    .scalar false "void" none, .array false [1, 2], .scalar true "t" (some (.bare "7")),
    .object false [("a", 0), ("b", 3)] (some 4)]
  root := 5

/-- Even integers, which no default is, and a type without values or samples. -/
def stubbornTypes : Registry :=
  ⟨[("even", .custom (fun v _ => match v with | .num (.int z) => z % 2 = 0 | _ => false)
      (some fun _ => .int 2)), ("void", .predicate fun _ _ => false)]⟩

theorem isSteady_stubbornTypes : stubbornTypes.IsSteady := by
  have htypes : ∀ {name type}, stubbornTypes.get? name = some type →
      ∃ (check : Value → Bool) (sample : Option Value),
        type = .custom (fun v _ => check v) (sample.map fun v _ => v) := by
    intro name type h
    have hmem := Table.mem_of_lookup_eq_some h
    simp only [stubbornTypes, List.mem_cons, List.not_mem_nil, or_false] at hmem
    rcases hmem with hmem | hmem
    · exact ⟨_, some (.int 2), (Prod.mk.inj hmem).2⟩
    · exact ⟨_, none, (Prod.mk.inj hmem).2⟩
  constructor
  · intro name type h v ctx ctx'
    obtain ⟨check, sample, rfl⟩ := htypes h
    rfl
  · intro name type h draw draw'
    obtain ⟨check, sample, rfl⟩ := htypes h
    cases sample <;> rfl

theorem shape_shape_stubborn :
    (shape (shape (.obj [("k", .null), ("b", .arr [.int 3]), ("a", .int 5)]) stubbornSchema
        stubbornTypes false fun _ => 0).answer stubbornSchema stubbornTypes false
        fun _ => 1).answer =
      .obj [("a", .str "x"), ("b", .arr [.int 2, .null]), ("k", .null)] := by
  have hcompile : compile stubbornFlat = .ok stubbornSchema :=
    compile_of_groups [.array [⟨false, .scalar "even" none⟩, ⟨false, .scalar "void" none⟩],
      .object [("a", ⟨true, .scalar "even" (some (.bare "x"))⟩), ("b", ⟨false, .reference 0⟩),
        ("*", ⟨true, .scalar "t" (some (.bare "7"))⟩)]] ⟨false, .reference 1⟩
      (by decide) (by decide) (by decide)
  exact (shape_shape hcompile isSteady_stubbornTypes _ false _ _).trans (by decide)

end TerseSchema
