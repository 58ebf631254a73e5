import TerseSchema.Proofs.Casting
import TerseSchema.Proofs.Records
import TerseSchema.Proofs.Shaped

/-!
# A shaped value conforms

Whatever is shaped, validation finds no violation in the result, so long as what
shaping falls back on is itself of its type.  The walk of validation over a shaped
value only ever meets what was shaped for the schema it meets it with
(`Shaper.Built`), and at no such position anything is violated.

## Main definitions

* `Supports` — a registry whose checks look at the value only and accept what a
  compiled schema falls back on.
* `Arena.IsPlain` — the schema uses builtin types other than functions, and its
  numeric defaults are numbers.
* `Shaper.Built` — a position holds what was shaped for its schema.

## Main results

* `built_next`, `not_violated_of_built` — the invariant of the walk.
* `validate_shape_eq_nil` — **a shaped value conforms.**
-/

namespace TerseSchema

/-- A registry supports a compiled schema: its checks look at the value only, and
what the scalars fall back on is of their types.  An optional scalar may fall back
on `null`. -/
structure Supports (registry : Registry) (schema : Arena) (draws : Path → Nat) : Prop where
  known : registry.ensureKnown schema.types = .ok ()
  untyped : registry.get? "" = none
  valueOnly : ∀ name type, registry.get? name = some type → ∀ v ctx ctx',
    type.check v ctx = type.check v ctx'
  required : ∀ type declared known path, .scalar false type declared ∈ schema.nodes →
    registry.get? type = some known → fallback known declared (draws path) ≠ .null ∧
      ∀ ctx, known.check (fallback known declared (draws path)) ctx = true
  optional : ∀ type declared known path, .scalar true type declared ∈ schema.nodes →
    registry.get? type = some known → fallback known declared (draws path) = .null ∨
      ∀ ctx, known.check (fallback known declared (draws path)) ctx = true

namespace Shaper

variable (sh : Shaper)

/-- A position holds what was shaped for its schema, at whatever place. -/
def Built (q : Position) : Prop := ∃ place, q.place.value = some (sh.shaped ⟨q.schema, place⟩)

variable {sh}

/-! ### The walk over a shaped value -/

/-- What is not nothing was not left out. -/
theorem not_leavesOut {schema : Tree} {place : Place} {v : Value} (hv : v ≠ .null)
    (h : v = sh.shaped ⟨schema, place⟩) :
    leavesOut sh.includeOptional schema.optional place = false := by
  refine Bool.eq_false_iff.mpr fun hl => hv ?_
  rw [h, sh.shaped_of_leavesOut hl]

/-- Every step over a shaped value leads to what was shaped for the next schema. -/
theorem built_next {q q' : Position} (hq : q.schema.Proper) (hb : sh.Built q)
    (h : Position.Next q q') : sh.Built q' := by
  obtain ⟨place', hvalue⟩ := hb
  cases h with
  | @item optional parts place items i v t hp hv ht =>
    have heq := Option.some.inj ((Place.value_of_present hp).symm.trans hvalue)
    have hl : leavesOut sh.includeOptional optional place' = false := not_leavesOut (by simp) heq
    cases hq with
    | array hparts _ =>
      obtain ⟨built, hbuilt, -, hitem⟩ := sh.shaped_array hl hparts
      obtain rfl : items = built := Value.arr.inj (heq.trans hbuilt)
      obtain ⟨t', ht', hw⟩ := hitem i v hv
      obtain rfl := Option.some.inj (ht.symm.trans ht')
      exact ⟨_, congrArg some hw⟩
  | @field optional fields wildcard place entries name t hp hf =>
    have heq := Option.some.inj ((Place.value_of_present hp).symm.trans hvalue)
    have hl : leavesOut sh.includeOptional optional place' = false := not_leavesOut (by simp) heq
    have hsome : ¬ (fields = [] ∧ wildcard = none) := fun h => by
      rw [h.1] at hf
      cases hf
    cases hq with
    | object hn _ _ =>
      obtain rfl := Value.obj.inj (heq.trans (sh.shaped_object hl hsome))
      exact ⟨_, sh.lookup_shaped_field hn hf⟩
  | @other optional fields t place entries key v hp hv =>
    have heq := Option.some.inj ((Place.value_of_present hp).symm.trans hvalue)
    have hl : leavesOut sh.includeOptional optional place' = false := not_leavesOut (by simp) heq
    have hsome : ¬ (fields = [] ∧ some t = none) := fun h => Option.some_ne_none t h.2
    -- an undeclared key of the result was one of the value that was shaped
    obtain rfl := Value.obj.inj (heq.trans (sh.shaped_object hl hsome))
    obtain ⟨t', v', ht', -, hw⟩ := sh.undeclared_shaped hv
    obtain rfl := Option.some.inj ht'
    exact ⟨_, congrArg some hw⟩

theorem built_reaches {q q' : Position} (hq : q.schema.Proper) (hb : sh.Built q)
    (h : q.Reaches q') : q'.schema.Proper ∧ sh.Built q' := by
  induction h with
  | refl => exact ⟨hq, hb⟩
  | tail _ hstep ih => exact ⟨Position.schema_proper_next ih.1 hstep, built_next ih.1 ih.2 hstep⟩

end Shaper

/-! ### What is found at a shaped value -/

/-- A scalar falls back on nothing, if it is optional, or on a value of its type. -/
theorem Supports.fallback_cases {registry : Registry} {schema : Arena} {draws : Path → Nat}
    (h : Supports registry schema draws) {optional : Bool} {type : String}
    {declared : Option Default} (hnode : .scalar optional type declared ∈ schema.nodes)
    {known : TypeDef} (hknown : registry.get? type = some known) (path : Path) :
    (fallback known declared (draws path) = .null ∧ optional = true) ∨
      fallback known declared (draws path) ≠ .null ∧
        ∀ ctx, known.check (fallback known declared (draws path)) ctx = true := by
  cases optional with
  | false => exact .inr (h.required type declared known path hnode hknown)
  | true =>
    by_cases hnull : fallback known declared (draws path) = .null
    · exact .inl ⟨hnull, rfl⟩
    · exact .inr ⟨hnull, (h.optional type declared known path hnode hknown).resolve_left hnull⟩

namespace Shaper

variable {sh : Shaper} {schema : Arena}

/-- A shaped scalar is nothing, if it is optional, or a value of its type. -/
theorem shaped_scalar_conforms (h : Supports sh.registry schema sh.draws) {optional : Bool}
    {type : String} {declared : Option Default}
    (hnode : InNodes schema.nodes optional type declared) (place : Place) :
    (sh.shaped ⟨.scalar optional type declared, place⟩ = .null ∧ optional = true) ∨
      sh.shaped ⟨.scalar optional type declared, place⟩ ≠ .null ∧
        ∀ ctx, sh.registry.check type (sh.shaped ⟨.scalar optional type declared, place⟩) ctx =
          .ok true := by
  cases hl : leavesOut sh.includeOptional optional place with
  | true => exact .inl ⟨sh.shaped_of_leavesOut hl, optional_of_leavesOut hl⟩
  | false =>
    rw [sh.shaped_scalar hl]
    by_cases htype : type = ""
    · subst htype
      rw [h.untyped]
      refine .inr ⟨?_, fun ctx => by rw [Registry.check, if_pos rfl]⟩
      cases hp : place.present with
      | none => exact Value.noConfusion
      | some v => exact Place.ne_null_of_present hp
    · have hnode := hnode.resolve_left htype
      obtain ⟨known, hknown⟩ := (means_of_mem_nodes h.known hnode).resolve_left htype
      rw [hknown]
      simp only [Registry.check, if_neg htype, hknown]
      have hfallback := h.fallback_cases hnode hknown place.path
      cases hp : place.present with
      | none => simpa [shapeKnown] using hfallback
      | some v =>
        cases hc : known.check v ⟨place.path, sh.root, place.parent⟩ with
        | false => simpa [shapeKnown, hc] using hfallback
        | true =>
          -- the result is checked at another place than the value was
          have hv := Place.ne_null_of_present hp
          have hall : ∀ ctx, known.check v ctx = true := fun ctx =>
            (h.valueOnly type known hknown v ctx _).trans hc
          exact .inr (by simpa [shapeKnown, hc] using ⟨hv, hall⟩)

/-- Nothing is violated where what was shaped for a schema meets it. -/
theorem not_violated_of_built (sh : Shaper) (h : Supports sh.registry schema sh.draws)
    {q : Position} (hq : q.schema.Proper) (hnodes : q.schema.AllScalars (InNodes schema.nodes))
    (hb : sh.Built q) (root : Value) (r : Record) :
    .violated r ∉ q.findings sh.registry root := by
  obtain ⟨place', hvalue⟩ := hb
  obtain ⟨t, place⟩ := q
  have hmissing : sh.shaped ⟨t, place'⟩ = .null → t.optional = true →
      .violated r ∉ Position.findings sh.registry root ⟨t, place⟩ := by
    intro hnull hoptional
    obtain ⟨violation, hf⟩ := Position.exists_missing sh.registry root t
      (Place.present_of_null (hvalue.trans (congrArg some hnull)))
    rw [hf, missing, hoptional]
    exact List.not_mem_nil
  have hleaves : leavesOut sh.includeOptional t.optional place' = true →
      .violated r ∉ Position.findings sh.registry root ⟨t, place⟩ :=
    fun hl => hmissing (sh.shaped_of_leavesOut hl) (optional_of_leavesOut hl)
  cases hq with
  | scalar optional type declared =>
    cases hnodes with
    | scalar hnode =>
      obtain ⟨hnull, hoptional⟩ | ⟨hne, hcheck⟩ := shaped_scalar_conforms h hnode place'
      · exact hmissing hnull hoptional
      · have hp := Place.present_of_value hvalue hne
        simp only [Position.findings, hp]
        intro hr
        have hmeans := hnode.elim .inl (means_of_mem_nodes h.known)
        have hfalse := (violated_checked_iff hmeans _ _).mp ⟨r, hr⟩
        rw [hcheck] at hfalse
        cases hfalse
  | @array optional parts hparts _ =>
    cases hl : leavesOut sh.includeOptional optional place' with
    | true => exact hleaves hl
    | false =>
      obtain ⟨built, hbuilt, -⟩ := sh.shaped_array hl hparts
      have hp := Place.present_of_value (hvalue.trans (congrArg some hbuilt)) (by simp)
      simp [Position.findings, hp, Value.items?]
  | @object optional fields wildcard _ _ _ =>
    cases hl : leavesOut sh.includeOptional optional place' with
    | true => exact hleaves hl
    | false =>
      obtain ⟨built, hbuilt⟩ := sh.exists_shaped_object fields wildcard hl
      have hp := Place.present_of_value (hvalue.trans (congrArg some hbuilt)) (by simp)
      simp [Position.findings, hp, Value.fields?]

end Shaper

/-- Validating a shaped value finds no violation. -/
theorem Supports.validate_shape {s : FlatSchema} {schema : Arena} (hs : compile s = .ok schema)
    {registry : Registry} {draws : Path → Nat} (h : Supports registry schema draws) (v : Value)
    (includeOptional : Bool) (pathRoot : String) :
    (validate (shape v schema registry includeOptional draws).answer schema registry
      pathRoot).answer = .ok [] := by
  let sh : Shaper := ⟨registry, v, includeOptional, draws⟩
  let out := (shape v schema registry includeOptional draws).answer
  have hstart : sh.Built (.start schema.tree out pathRoot) := ⟨_, rfl⟩
  have hproper := proper_of_compile hs
  obtain ⟨records, hrecords, hmem⟩ := Position.exists_records h.known out pathRoot
  have hnil : records = [] := by
    refine List.eq_nil_iff_forall_not_mem.mpr fun r hr => ?_
    obtain ⟨q, hq, hfound⟩ := (hmem r).mp hr
    obtain ⟨hschema, hbuilt⟩ := Shaper.built_reaches hproper hstart hq
    have hnodes := Position.allScalars_reaches (allScalars_tree schema) hq
    exact sh.not_violated_of_built h hschema hnodes hbuilt out r hfound
  exact hnil ▸ hrecords

/-! ### The builtin kinds -/

/-- A schema of builtin kinds other than functions, the numeric defaults of which
are numbers. -/
def Arena.IsPlain (schema : Arena) : Prop :=
  ∀ optional type declared, .scalar optional type declared ∈ schema.nodes →
    type = "" ∨ ∃ kind, kind ≠ .function ∧
      Registry.builtin.get? type = some (.primitive kind) ∧
      (kind = .number ∨ kind = .integer → ∀ d ∈ declared, kind.cast d.text ≠ .null)

/-- Every builtin name stands for a kind. -/
theorem Registry.exists_kind {type : String} {known : TypeDef}
    (h : Registry.builtin.get? type = some known) : ∃ kind, known = .primitive kind := by
  have hmem := Table.mem_of_mem_ofEntries (Table.mem_of_lookup_eq_some h)
  obtain ⟨⟨kind, long, short⟩, -, hmem⟩ := List.mem_flatMap.mp hmem
  refine ⟨kind, ?_⟩
  rcases List.mem_cons.mp hmem with hmem | hmem
  · exact (Prod.mk.inj hmem).2
  · exact (Prod.mk.inj (List.mem_singleton.mp hmem)).2

theorem Registry.builtin_untyped : Registry.builtin.get? "" = none :=
  Option.isNone_iff_eq_none.mp (by decide)

/-- The fallbacks of a plain schema are of their kinds. -/
theorem Arena.IsPlain.fallback {schema : Arena} (h : schema.IsPlain) {optional : Bool}
    {type : String} {declared : Option Default}
    (hnode : .scalar optional type declared ∈ schema.nodes) {known : TypeDef}
    (hknown : Registry.builtin.get? type = some known) (draw : Nat) :
    fallback known declared draw ≠ .null ∧
      ∀ ctx, known.check (fallback known declared draw) ctx = true := by
  obtain rfl | ⟨kind, hkind, hget, hcast⟩ := h optional type declared hnode
  · rw [Registry.builtin_untyped] at hknown
    cases hknown
  · obtain rfl := Option.some.inj (hget.symm.trans hknown)
    cases declared with
    | none =>
      obtain ⟨hcheck, hne⟩ := Primitive.check_sample hkind
      exact ⟨hne, fun _ => hcheck⟩
    | some d =>
      have hne : kind.cast d.text ≠ .null := by
        cases kind with
        | string => exact Value.noConfusion
        | boolean => exact Value.noConfusion
        | function => exact absurd rfl hkind
        | number => exact hcast (.inl rfl) d rfl
        | integer => exact hcast (.inr rfl) d rfl
      exact ⟨hne, fun _ => Primitive.check_cast hkind hne⟩

theorem Arena.IsPlain.supports {schema : Arena} (h : schema.IsPlain) (draws : Path → Nat) :
    Supports .builtin schema draws where
  known := by
    rw [Registry.ensureKnown]
    split
    · next type hfind =>
      have hunknown := List.find?_some hfind
      obtain ⟨node, hnode, htype⟩ := List.mem_filterMap.mp (List.mem_of_find?_eq_some hfind)
      cases node with
      | scalar optional type' declared =>
        obtain rfl : type' = type := Option.some.inj htype
        obtain rfl | ⟨kind, -, hget, -⟩ := h optional type' declared hnode
        · simp at hunknown
        · simp [Registry.has, hget] at hunknown
      | array optional parts => cases htype
      | object optional fields wildcard => cases htype
    · rfl
  untyped := Registry.builtin_untyped
  valueOnly := by
    intro name type hget v ctx ctx'
    obtain ⟨kind, rfl⟩ := Registry.exists_kind hget
    rfl
  required := fun type declared known path hnode hknown => h.fallback hnode hknown _
  optional := fun type declared known path hnode hknown => .inr (h.fallback hnode hknown _).2

/-- **A shaped value conforms.**  Whatever value is shaped under a compiled schema,
with or without absent optional parts, validating the result gives no record under
any name for it: in general if the registry supports the schema, and so always for
the builtin kinds other than functions if the numeric defaults are numbers. -/
theorem validate_shape_eq_nil {s : FlatSchema} {schema : Arena} (hs : compile s = .ok schema)
    (draws : Path → Nat) (v : Value) (includeOptional : Bool) (pathRoot : String) :
    (∀ registry, Supports registry schema draws →
      (validate (shape v schema registry includeOptional draws).answer schema registry
        pathRoot).answer = .ok []) ∧
    (schema.IsPlain →
      (validate (shape v schema .builtin includeOptional draws).answer schema .builtin
        pathRoot).answer = .ok []) :=
  ⟨fun _ h => h.validate_shape hs v includeOptional pathRoot,
    fun h => (h.supports draws).validate_shape hs v includeOptional pathRoot⟩

/-- The schema `[even,?even]`, flat and compiled. -/
def evenFlat : FlatSchema := ⟨['0'], ["[even,?even]".toList], []⟩

@[inherit_doc evenFlat] def evenSchema : Arena :=
  ⟨[.scalar false "even" none, .scalar true "even" none, .array false [0, 1]], 2⟩

/-- Even integers, with `2` as their sample. -/
def evenType : TypeDef :=
  .custom (fun v _ => match v with | .num (.int z) => z % 2 = 0 | _ => false) (some fun _ => .int 2)

theorem supports_even (draws : Path → Nat) :
    Supports ⟨[("even", evenType)]⟩ evenSchema draws := by
  have hget : ∀ {type known}, Registry.get? ⟨[("even", evenType)]⟩ type = some known →
      known = evenType := by
    intro type known h
    have hmem := Table.mem_of_lookup_eq_some h
    exact (Prod.mk.inj (List.mem_singleton.mp hmem)).2
  have hdeclared : ∀ {optional type declared}, .scalar optional type declared ∈ evenSchema.nodes →
      declared = none := by
    intro optional type declared h
    simp only [evenSchema, List.mem_cons] at h
    rcases h with h | h | h
    · exact (Node.scalar.inj h).2.2
    · exact (Node.scalar.inj h).2.2
    · simp at h
  have hsample : ∀ {optional type declared known}, ∀ path,
      .scalar optional type declared ∈ evenSchema.nodes →
      Registry.get? ⟨[("even", evenType)]⟩ type = some known →
      fallback known declared (draws path) ≠ .null ∧
        ∀ ctx, known.check (fallback known declared (draws path)) ctx = true := by
    intro optional type declared known path hnode h
    obtain rfl := hget h
    obtain rfl := hdeclared hnode
    exact ⟨Value.noConfusion, fun _ => rfl⟩
  refine ⟨by decide, Option.isNone_iff_eq_none.mp (by decide), ?_, ?_, ?_⟩
  · intro name type h v ctx ctx'
    obtain rfl := hget h
    rfl
  · exact fun type declared known path => hsample path
  · exact fun type declared known path hnode h => .inr (hsample path hnode h).2

/-- The schema `[n:1.5,?b,]`, flat and compiled. -/
def plainFlat : FlatSchema := ⟨['0'], ["[n:1.5,?b,]".toList], []⟩

@[inherit_doc plainFlat] def plainSchema : Arena :=
  ⟨[.scalar false "n" (some (.bare "1.5")), .scalar true "b" none, .scalar false "" none,
    .array false [0, 1, 2]], 3⟩

theorem isPlain_plainSchema : plainSchema.IsPlain := by
  intro optional type declared h
  simp only [plainSchema, List.mem_cons] at h
  rcases h with h | h | h | h
  · obtain ⟨rfl, rfl, rfl⟩ := Node.scalar.inj h
    refine .inr ⟨.number, by decide, rfl, fun _ d hd => ?_⟩
    obtain rfl := Option.some.inj hd
    decide +kernel
  · obtain ⟨rfl, rfl, rfl⟩ := Node.scalar.inj h
    exact .inr ⟨.boolean, by decide, rfl, fun _ _ hd => by cases hd⟩
  · obtain ⟨rfl, rfl, rfl⟩ := Node.scalar.inj h
    exact .inl rfl
  · simp at h

theorem validate_shape_even_plain :
    (validate (shape (.arr [.str "x", .null, .int 3]) evenSchema ⟨[("even", evenType)]⟩ true
        fun _ => 0).answer evenSchema ⟨[("even", evenType)]⟩ "doc").answer = .ok [] ∧
      (validate (shape (.bool true) plainSchema .builtin false fun _ => 0).answer plainSchema
        .builtin "doc").answer = .ok [] := by
  have heven : compile evenFlat = .ok evenSchema :=
    compile_of_groups [.array [⟨false, .scalar "even" none⟩, ⟨true, .scalar "even" none⟩]]
      ⟨false, .reference 0⟩ (by decide) (by decide) (by decide)
  have hplain : compile plainFlat = .ok plainSchema :=
    compile_of_groups [.array [⟨false, .scalar "n" (some (.bare "1.5"))⟩,
      ⟨true, .scalar "b" none⟩, ⟨false, .scalar "" none⟩]] ⟨false, .reference 0⟩
      (by decide) (by decide) (by decide)
  constructor
  · exact (validate_shape_eq_nil heven _ _ true "doc").1 _ (supports_even _)
  · exact (validate_shape_eq_nil hplain _ _ false "doc").2 isPlain_plainSchema

end TerseSchema
