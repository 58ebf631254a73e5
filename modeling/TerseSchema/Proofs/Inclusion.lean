import TerseSchema.Proofs.Idempotence

/-!
# What including absent parts changes

Shaping may leave out what is optional and absent, or include it.  The two results are
compared position by position, at all those that shaping reaches while it leaves parts
out: they have the same scalars, and the same items and fields in the same order, except
where a part is left out.

## Main definitions

* `Value.steps` — the steps that lead on from a value.
* `Tree.required` — a schema that is not optional.
* `Shaper.including` — another call, which includes absent parts or does not.

## Main results

* `Shaper.mem_steps_shaped` — what is built at a position leads on to the positions inside
  it.
* `Shaper.steps_shaped_including`, `Shaper.shaped_including_of_leaf` — two calls compared
  at a position.
* `shape_included` — **only what is optional and absent is included or not.**
-/

namespace TerseSchema

/-- A schema that is not optional, but the same otherwise. -/
def Tree.required : Tree → Tree
  | .scalar _ type declared => .scalar false type declared
  | .array _ parts => .array false parts
  | .object _ fields wildcard => .object false fields wildcard

/-! ### Steps -/

/-- The steps that lead on from a value, in order. -/
def Value.steps : Value → List Step
  | .arr items => (List.range items.length).map .item
  | .obj fields => (Table.names fields).map .field
  | _ => []

theorem Value.mem_steps {v : Value} {step : Step} : step ∈ v.steps ↔ (v.child? step).isSome := by
  cases v with
  | arr items => cases step <;> simp [steps, child?, items?, get?, fields?]
  | obj fields =>
    cases step with
    | item index => simp [steps, child?, items?]
    | field name =>
      have hlookup : (Value.obj fields).child? (.field name) = fields.lookup name := rfl
      rw [hlookup, Table.isSome_lookup_iff, steps]
      exact List.mem_map_of_injective fun _ _ h => Step.field.inj h
  | _ => cases step <;> simp [steps, child?, items?, get?, fields?]

namespace Shaper

/-- Another call, which includes absent parts or does not. -/
def including (sh : Shaper) (includeOptional : Bool) (draws : Path → Nat) : Shaper :=
  { sh with includeOptional, draws }

variable {sh : Shaper} {includeOptional : Bool} {draws : Path → Nat} {optional : Bool}
  {parts : List Tree} {fields : List (String × Tree)} {wildcard : Option Tree} {place : Place}

/-! ### One call -/

/-- A part that is not left out is built as if it were not optional. -/
theorem shaped_required {schema : Tree}
    (h : leavesOut sh.includeOptional schema.optional place = false) :
    sh.shaped ⟨schema.required, place⟩ = sh.shaped ⟨schema, place⟩ := by
  have hrequired : leavesOut sh.includeOptional false place = false := by
    rw [leavesOut, Bool.and_false, Bool.false_and]
  cases schema with
  | scalar optional type declared =>
    exact (sh.shaped_scalar hrequired).trans (sh.shaped_scalar h).symm
  | array optional parts =>
    rw [Tree.required, shaped, shaped, Walk.run_array, Walk.run_array]
    exact congrArg Traced.answer ((if_neg (Bool.eq_false_iff.mp hrequired)).trans
      (if_neg (Bool.eq_false_iff.mp h)).symm)
  | object optional fields wildcard =>
    rw [Tree.required, shaped, shaped, Walk.run_object, Walk.run_object]
    exact congrArg Traced.answer ((if_neg (Bool.eq_false_iff.mp hrequired)).trans
      (if_neg (Bool.eq_false_iff.mp h)).symm)

/-- Every item that is built is that of a position inside the array. -/
theorem inside_of_mem_steps_array (hbuilds : leavesOut false optional place = false)
    (hparts : parts ≠ []) {step : Step}
    (hstep : step ∈ (sh.shaped ⟨.array optional parts, place⟩).steps) :
    ∃ q', Position.Inside ⟨.array optional parts, place⟩ q' ∧
      q'.place.path = place.path.extend step := by
  obtain ⟨built, hbuilt, hlength, -⟩ :=
    sh.shaped_array (leavesOut_eq_false hbuilds sh.includeOptional) hparts
  rw [hbuilt] at hstep
  obtain ⟨i, hi, rfl⟩ := List.mem_map.mp hstep
  obtain ⟨t, ht⟩ := exists_nth hparts i
  exact ⟨_, .item hbuilds (hlength ▸ List.mem_range.mp hi) ht, rfl⟩

/-- Every field that is written is that of a position inside the object. -/
theorem inside_of_mem_shapedEntries (hbuilds : leavesOut false optional place = false)
    {e : String × Value} (he : e ∈ sh.shapedEntries fields wildcard place) :
    ∃ q', Position.Inside ⟨.object optional fields wildcard, place⟩ q' ∧
      q'.place.path = place.path.extend (.field e.1) := by
  obtain ⟨name, t, hf, rfl⟩ | ⟨t, key, v, rfl, hv, rfl⟩ := sh.mem_shapedEntries he
  · exact ⟨_, .field hbuilds hf, rfl⟩
  · exact ⟨_, .other hbuilds hv, rfl⟩

theorem inside_of_mem_steps_object (hbuilds : leavesOut false optional place = false)
    (hsome : ¬ (fields = [] ∧ wildcard = none)) {step : Step}
    (hstep : step ∈ (sh.shaped ⟨.object optional fields wildcard, place⟩).steps) :
    ∃ q', Position.Inside ⟨.object optional fields wildcard, place⟩ q' ∧
      q'.place.path = place.path.extend step := by
  rw [sh.shaped_object (leavesOut_eq_false hbuilds sh.includeOptional) hsome] at hstep
  obtain ⟨name, hname, rfl⟩ := List.mem_map.mp hstep
  obtain ⟨e, he, rfl⟩ := List.mem_map.mp hname
  exact inside_of_mem_shapedEntries hbuilds (Table.mem_of_mem_ofEntries he)

/-- **What is built at a position leads on to the positions inside it**, if there are
any. -/
theorem mem_steps_shaped {q q' : Position} (hq : q.Proper) (h : q.Inside q') {step : Step} :
    step ∈ (sh.shaped q).steps ↔
      ∃ q', q.Inside q' ∧ q'.place.path = q.place.path.extend step := by
  constructor
  · intro hstep
    cases h with
    | item hbuilds _ ht =>
      cases hq.schema with
      | array hparts _ => exact inside_of_mem_steps_array hbuilds hparts hstep
    | field hbuilds hf =>
      refine inside_of_mem_steps_object hbuilds ?_ hstep
      rintro ⟨rfl, -⟩
      cases hf
    | other hbuilds _ =>
      exact inside_of_mem_steps_object hbuilds (fun h => Option.some_ne_none _ h.2) hstep
  · -- what stands at a step is led to by it
    rintro ⟨a, ha, hpath⟩
    obtain ⟨step', hpath', hchild⟩ := sh.child?_shaped hq ha
    obtain ⟨-, rfl⟩ := Path.extend_inj (hpath.symm.trans hpath')
    rw [Value.mem_steps, hchild]
    rfl

/-! ### Two calls -/

theorem shapeKnown_answer_eq {registry : Registry} (hfixed : registry.HasFixedSamples)
    {name : String} {type : TypeDef} (hget : registry.get? name = some type)
    (declared : Option Default) (draw draw' : Nat) (value : Option Value) (ctx : Context) :
    (shapeKnown type name declared draw value ctx).answer =
      (shapeKnown type name declared draw' value ctx).answer := by
  have hfallback := hfixed.fallback hget declared draw draw'
  cases value with
  | none => exact hfallback
  | some v => rw [shapeKnown, shapeKnown, hfallback]

/-- Two calls build the same scalars. -/
theorem shaped_scalar_including (hfixed : sh.registry.HasFixedSamples) {type : String}
    {declared : Option Default} (hbuilds : leavesOut false optional place = false) :
    (sh.including includeOptional draws).shaped ⟨.scalar optional type declared, place⟩ =
      sh.shaped ⟨.scalar optional type declared, place⟩ := by
  have hget' : (sh.including includeOptional draws).registry.get? type =
      sh.registry.get? type := rfl
  rw [shaped_scalar _ (leavesOut_eq_false hbuilds _), hget',
    shaped_scalar _ (leavesOut_eq_false hbuilds _)]
  cases hget : sh.registry.get? type with
  | none => rfl
  | some known => exact shapeKnown_answer_eq hfixed hget declared _ _ place.present _

theorem shaped_object_any_including (hbuilds : leavesOut false optional place = false) :
    (sh.including includeOptional draws).shaped ⟨.object optional [] none, place⟩ =
      sh.shaped ⟨.object optional [] none, place⟩ := by
  rw [shaped_object_any _ (leavesOut_eq_false hbuilds _),
    shaped_object_any _ (leavesOut_eq_false hbuilds _)]

/-- **Two calls build the same where no position is inside.** -/
theorem shaped_including_of_leaf (hfixed : sh.registry.HasFixedSamples) {q : Position}
    (hq : q.Proper) (hbuilds : leavesOut false q.schema.optional q.place = false)
    (hleaf : ∀ q', ¬ q.Inside q') :
    (sh.including includeOptional draws).shaped q = sh.shaped q := by
  obtain ⟨schema, place⟩ := q
  obtain ⟨hschema, -⟩ := hq
  cases hschema with
  | scalar optional type declared => exact shaped_scalar_including hfixed hbuilds
  | @array optional parts hparts _ =>
    -- an array is as long as its pattern at least
    obtain ⟨t, ht⟩ := exists_nth hparts 0
    have hlength := List.length_pos_iff.mpr hparts
    exact absurd (.item hbuilds (by omega) ht) (hleaf _)
  | @object optional fields wildcard _ _ _ =>
    replace hbuilds : leavesOut false optional place = false := hbuilds
    by_cases hany : fields = [] ∧ wildcard = none
    · obtain ⟨rfl, rfl⟩ := hany
      exact shaped_object_any_including hbuilds
    · have hnil : ∀ sh : Shaper, sh.shapedEntries fields wildcard place = [] := by
        refine fun sh => List.eq_nil_iff_forall_not_mem.mpr fun e he => ?_
        obtain ⟨q', hq', -⟩ := inside_of_mem_shapedEntries hbuilds he
        exact hleaf q' hq'
      rw [shaped_object _ (leavesOut_eq_false hbuilds _) hany,
        shaped_object _ (leavesOut_eq_false hbuilds _) hany, hnil, hnil]

/-- **What two calls build leads on in the same steps**, in the same order. -/
theorem steps_shaped_including (hfixed : sh.registry.HasFixedSamples) {q : Position}
    (hq : q.Proper) (hbuilds : leavesOut false q.schema.optional q.place = false) :
    ((sh.including includeOptional draws).shaped q).steps = (sh.shaped q).steps := by
  obtain ⟨schema, place⟩ := q
  obtain ⟨hschema, hvalue⟩ := hq
  cases hschema with
  | scalar optional type declared =>
    exact congrArg Value.steps (shaped_scalar_including hfixed hbuilds)
  | @array optional parts hparts _ =>
    replace hbuilds : leavesOut false optional place = false := hbuilds
    obtain ⟨built, hbuilt, hlength, -⟩ := sh.shaped_array (leavesOut_eq_false hbuilds _) hparts
    obtain ⟨built', hbuilt', hlength', -⟩ :=
      (sh.including includeOptional draws).shaped_array (leavesOut_eq_false hbuilds _) hparts
    rw [hbuilt, hbuilt', Value.steps, Value.steps, hlength, hlength']
  | @object optional fields wildcard hn _ _ =>
    replace hbuilds : leavesOut false optional place = false := hbuilds
    by_cases hany : fields = [] ∧ wildcard = none
    · obtain ⟨rfl, rfl⟩ := hany
      exact congrArg Value.steps (shaped_object_any_including hbuilds)
    · -- the fields written have the same names
      have he : (Table.names place.entries).Nodup := (Place.proper_entries hvalue).nodup
      rw [shaped_object_of_nodup _ (leavesOut_eq_false hbuilds _) hany hn he,
        shaped_object_of_nodup _ (leavesOut_eq_false hbuilds _) hany hn he, Value.steps,
        Value.steps, names_shapedEntries, names_shapedEntries]

end Shaper

/-! ### Whole values -/

/-- **Only what is optional and absent is included or not.**  A document is shaped once
without and once with the optional parts that are absent, where samples do not vary.
Consider a position that the first shaping reaches.  If the schema is optional there and
the document has nothing, or `null`, the first result has `null` there, and the second one
has what would be built if the schema were not optional.  At any other position that has
none inside, the two have the same; and where there are positions inside, both have the
same items or the same fields in the same order, those of the positions inside. -/
theorem shape_included {s : FlatSchema} {schema : Arena} (hs : compile s = .ok schema)
    {registry : Registry} (hfixed : registry.HasFixedSamples) {v : Value} (hv : v.Proper)
    (draws draws' : Path → Nat) (q : Position)
    (hq : (Position.start schema.tree v Path.defaultRoot).Contains q) :
    v.at? q.place.path.steps = q.place.value ∧
    ∃ a b, (shape v schema registry false draws).answer.at? q.place.path.steps = some a ∧
      (shape v schema registry true draws').answer.at? q.place.path.steps = some b ∧
      if q.place.present = none ∧ q.schema.optional = true then
        a = .null ∧ b = Shaper.shaped ⟨registry, v, true, draws'⟩ ⟨q.schema.required, q.place⟩
      else
        ((∀ q', ¬ q.Inside q') → a = b) ∧ a.steps = b.steps ∧
        ((∃ q', q.Inside q') → ∀ step, step ∈ a.steps ↔
          ∃ q', q.Inside q' ∧ q'.place.path = q.place.path.extend step) := by
  let sh : Shaper := ⟨registry, v, false, draws⟩
  have hstart := Position.proper_start hs hv Path.defaultRoot
  have hproper := hstart.contains hq
  refine ⟨Position.at?_of_contains hstart hq, sh.shaped q,
    (sh.including true draws').shaped q, ?_, ?_, ?_⟩
  · obtain ⟨steps, hsteps, hat⟩ := sh.at?_shaped_of_contains hstart hq
    rw [hsteps]
    exact hat
  · obtain ⟨steps, hsteps, hat⟩ :=
      (sh.including true draws').at?_shaped_of_contains hstart hq
    rw [hsteps]
    exact hat
  · split
    · next hleft =>
      -- the first call leaves the part out, the second one never does
      have hincluded : leavesOut true q.schema.optional q.place = false := by
        rw [leavesOut, Bool.not_true, Bool.and_false]
      refine ⟨sh.shaped_of_leavesOut (leavesOut_iff.mpr ⟨hleft.1, hleft.2, rfl⟩), ?_⟩
      exact (Shaper.shaped_required hincluded).symm
    · next hleft =>
      have hbuilds : leavesOut false q.schema.optional q.place = false := by
        rw [Bool.eq_false_iff]
        exact fun hl => hleft ⟨(leavesOut_iff.mp hl).1, (leavesOut_iff.mp hl).2.1⟩
      refine ⟨fun hleaf => ?_, ?_, ?_⟩
      · exact (Shaper.shaped_including_of_leaf hfixed hproper hbuilds hleaf).symm
      · exact (Shaper.steps_shaped_including hfixed hproper hbuilds).symm
      · rintro ⟨q', hinside⟩ step
        exact Shaper.mem_steps_shaped hproper hinside

/-- The schema `{a:?{b:own},c:[own,?own],d:{e:?own}}`, flat and compiled. -/
def ownFlat : FlatSchema :=
  ⟨['3'], ["{b:own}".toList, "[own,?own]".toList, "{e:?own}".toList, "{a:?0,c:1,d:2}".toList], []⟩

@[inherit_doc ownFlat] def ownSchema : Arena where
  nodes := [.scalar false "own" none, .object true [("b", 0)] none, .scalar false "own" none,
    .scalar true "own" none, .array false [2, 3], .scalar true "own" none,
    .object false [("e", 5)] none, .object false [("a", 1), ("c", 4), ("d", 6)] none]
  root := 7

/-- The fields of the schema. -/
def ownFields : List (String × Tree) :=
  [("a", .object true [("b", .scalar false "own" none)] none),
    ("c", .array false [.scalar false "own" none, .scalar true "own" none]),
    ("d", .object false [("e", .scalar true "own" none)] none)]

/-- A type of texts, whose check looks at the field `id` of the whole value. -/
def ownTypes : Registry :=
  ⟨[("own", .custom (fun v ctx => v.isText && (ctx.root.get? "id").any (·.same v))
      (some fun _ => .str "none"))]⟩

/-- A document with an item too little, and without two of the fields. -/
def ownValue : Value := .obj [("id", .str "x"), ("c", .arr [.str "x"])]

theorem hasFixedSamples_ownTypes : ownTypes.HasFixedSamples := by
  intro name type h draw draw'
  have hmem := Table.mem_of_lookup_eq_some h
  simp only [ownTypes, List.mem_singleton, Prod.mk.injEq] at hmem
  obtain ⟨-, rfl⟩ := hmem
  rfl

theorem shape_included_ownValue :
    (∃ a b, (shape ownValue ownSchema ownTypes false fun _ => 0).answer.at?
          [.field "d", .field "e"] = some a ∧
      (shape ownValue ownSchema ownTypes true fun _ => 1).answer.at?
          [.field "d", .field "e"] = some b ∧ a = .null ∧ b = .str "none") ∧
    ∃ a b, (shape ownValue ownSchema ownTypes false fun _ => 0).answer.at? [.field "c"] = some a ∧
      (shape ownValue ownSchema ownTypes true fun _ => 1).answer.at? [.field "c"] = some b ∧
      a.steps = b.steps := by
  have hcompile : compile ownFlat = .ok ownSchema :=
    compile_of_groups [.object [("b", ⟨false, .scalar "own" none⟩)],
      .array [⟨false, .scalar "own" none⟩, ⟨true, .scalar "own" none⟩],
      .object [("e", ⟨true, .scalar "own" none⟩)],
      .object [("a", ⟨true, .reference 0⟩), ("c", ⟨false, .reference 1⟩),
        ("d", ⟨false, .reference 2⟩)]] ⟨false, .reference 3⟩
      (by decide) (by decide) (by decide)
  have hproper : ownValue.Proper := by
    refine .obj (by decide) ?_
    simp only [List.forall_mem_cons]
    refine ⟨.str _, .arr ?_, List.forall_mem_nil _⟩
    exact List.forall_mem_singleton.mpr (.str _)
  have hincluded := shape_included hcompile hasFixedSamples_ownTypes hproper (fun _ => 0) fun _ => 1
  let start : Place := ⟨some ownValue, ⟨"json", []⟩, none⟩
  constructor
  · -- what is missing in an object that is missing itself
    have hd := @Position.Inside.field false ownFields none start "d"
      (.object false [("e", .scalar true "own" none)] none) rfl (by simp [ownFields])
    have he := @Position.Inside.field false [("e", .scalar true "own" none)] none
      (start.field "d" none) "e" (.scalar true "own" none) rfl (List.mem_singleton_self _)
    obtain ⟨-, a, b, ha, hb, hleft⟩ := hincluded _ (.tail (.single hd) he)
    obtain ⟨hnull, hown⟩ := (if_pos ⟨rfl, rfl⟩).mp hleft
    exact ⟨a, b, ha, hb, hnull, hown⟩
  · have hc := @Position.Inside.field false ownFields none start "c"
      (.array false [.scalar false "own" none, .scalar true "own" none]) rfl (by simp [ownFields])
    obtain ⟨-, a, b, ha, hb, hbuilt⟩ := hincluded _ (.single hc)
    rw [if_neg (by simp [Tree.optional])] at hbuilt
    exact ⟨a, b, ha, hb, hbuilt.2.1⟩

end TerseSchema
