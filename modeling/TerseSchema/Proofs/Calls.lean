import TerseSchema.Proofs.Records
import TerseSchema.Proofs.Shaped
import TerseSchema.Proofs.Traversal

/-!
# Both walks call the same checks

Shaping goes to more places than validation: it fills arrays up to the length of
their patterns, and goes on below what is absent or of another kind.  It calls no
custom check there, since nothing is there to be checked.  The calls of either
walk are those of the positions that validation reaches, one after another.

## Main definitions

* `Position.calls` — the calls that a position itself makes.
* `Shaper.calls` — the calls that shaping makes from a position on.

## Main results

* `Shaper.calls_of_absent` — where nothing is, shaping calls nothing.
* `Shaper.calls_eq_flatMap` — shaping calls what the positions it shares with
  validation call.
* `calls_shape_eq_calls_validate` — **both walks call the same checks.**
-/

namespace TerseSchema

/-- What is done with the items of a list is done with their numbers. -/
theorem flatMap_zipIdx {α β : Type} {items : List α} {f : α × Nat → List β} {g : Nat → List β}
    (h : ∀ i v, items[i]? = some v → f (v, i) = g i) :
    items.zipIdx.flatMap f = (List.range items.length).flatMap g := by
  rw [List.flatMap_def, List.flatMap_def]
  congr 1
  refine List.ext_getElem (by simp) fun i hi hi' => ?_
  have hlt : i < items.length := by simpa using hi
  simpa using h i items[i] (List.getElem?_eq_getElem hlt)

/-! ### Calls of a position -/

/-- The calls that a position itself makes. -/
def Position.calls (registry : Registry) (root : Value) (q : Position) : List Call :=
  match q.schema, q.place.present with
  | .scalar _ type _, some v => registry.calls type v ⟨q.place.path, root, q.place.parent⟩
  | _, _ => []

theorem filterMap_call?_missing (optional : Bool) (place : Place) (violation : Violation) :
    (missing optional place violation).filterMap Finding.call? = [] := by
  cases optional with
  | true => rfl
  | false => rfl

theorem filterMap_call?_checked (registry : Registry) (type : String) (v : Value)
    (ctx : Context) :
    (checked registry type v ctx).filterMap Finding.call? = registry.calls type v ctx := by
  have hcalls : ((registry.calls type v ctx).map Finding.called).filterMap Finding.call? =
      registry.calls type v ctx := by
    rw [List.filterMap_map]
    exact List.filterMap_some
  rw [checked, List.filterMap_append, hcalls]
  cases registry.check type v ctx with
  | error e => exact List.append_nil _
  | ok b => cases b <;> exact List.append_nil _

/-- What is found at a position has the calls that it makes. -/
theorem filterMap_call?_findings (registry : Registry) (root : Value) (q : Position) :
    (q.findings registry root).filterMap Finding.call? = q.calls registry root := by
  obtain ⟨schema, place⟩ := q
  unfold Position.calls
  cases hp : place.present with
  | none =>
    obtain ⟨violation, hf⟩ := Position.exists_missing registry root schema hp
    rw [hf, filterMap_call?_missing]
    cases schema <;> rfl
  | some v =>
    cases schema with
    | scalar optional type declared =>
      simp only [Position.findings, hp]
      exact filterMap_call?_checked registry type v _
    | array optional parts =>
      simp only [Position.findings, hp]
      split <;> rfl
    | object optional fields wildcard =>
      simp only [Position.findings, hp]
      split <;> rfl

/-- The calls of a validation with known types, in the order of the positions. -/
theorem calls_validate {registry : Registry} {schema : Arena}
    (h : registry.ensureKnown schema.types = .ok ()) (v : Value) (pathRoot : String) :
    (validate v schema registry pathRoot).calls =
      (Position.start schema.tree v pathRoot).preorder.flatMap (Position.calls registry v) := by
  have hfound : (validate v schema registry pathRoot).calls =
      ((Position.start schema.tree v pathRoot).validated registry v).filterMap Finding.call? := by
    simp only [validate, h]
    rfl
  rw [hfound, Position.validated_eq_flatMap, List.filterMap_flatMap]
  exact List.flatMap_congr fun q _ => filterMap_call?_findings registry v q

/-! ### Calls of shaping -/

namespace Shaper

variable (sh : Shaper)

/-- The calls that shaping makes from a position on. -/
def calls (q : Position) : List Call :=
  ((shaping sh.registry sh.root sh.includeOptional sh.draws).run q.schema q.place).calls

theorem calls_of_leavesOut {schema : Tree} {place : Place}
    (h : leavesOut sh.includeOptional schema.optional place = true) :
    sh.calls ⟨schema, place⟩ = [] := by
  cases schema with
  | scalar optional type declared =>
    rw [calls, Walk.run_scalar]
    exact congrArg Traced.calls (if_pos h)
  | array optional parts =>
    rw [calls, Walk.run_array]
    exact congrArg Traced.calls (if_pos h)
  | object optional fields wildcard =>
    rw [calls, Walk.run_object]
    exact congrArg Traced.calls (if_pos h)

theorem calls_scalar {optional : Bool} {type : String} {declared : Option Default} {place : Place}
    (h : leavesOut sh.includeOptional optional place = false) :
    sh.calls ⟨.scalar optional type declared, place⟩ =
      match sh.registry.get? type, place.present with
      | some known, some v => known.calls type v ⟨place.path, sh.root, place.parent⟩
      | _, _ => [] := by
  rw [calls, Walk.run_scalar]
  refine (congrArg Traced.calls (if_neg (Bool.eq_false_iff.mp h))).trans ?_
  cases sh.registry.get? type with
  | none => rfl
  | some known =>
    simp only [shapeKnown]
    cases place.present <;> rfl

theorem calls_array {optional : Bool} {parts : List Tree} {place : Place}
    (h : leavesOut sh.includeOptional optional place = false) :
    sh.calls ⟨.array optional parts, place⟩ =
      (List.range (max place.items.length parts.length)).flatMap fun i =>
        ((nth parts i).map fun t => sh.calls ⟨t, place.item i place.items[i]?⟩).getD [] := by
  rw [calls, Walk.run_array]
  refine (congrArg Traced.calls (if_neg (Bool.eq_false_iff.mp h))).trans ?_
  rw [Traced.array, List.filterMap_eq_flatMap_toList, List.flatMap_assoc, List.length_map]
  refine List.flatMap_congr fun i _ => ?_
  rw [nth_map]
  cases nth parts i with
  | none => rfl
  | some t => exact List.flatMap_singleton _ _

theorem calls_object {optional : Bool} {fields : List (String × Tree)} {wildcard : Option Tree}
    {place : Place} (h : leavesOut sh.includeOptional optional place = false) :
    sh.calls ⟨.object optional fields wildcard, place⟩ =
      (fields.flatMap fun (name, t) =>
          sh.calls ⟨t, place.field name (place.entries.lookup name)⟩) ++
        wildcard.toList.flatMap fun t => (undeclared fields place.entries).flatMap fun (key, v) =>
          sh.calls ⟨t, place.field key (some v)⟩ := by
  rw [calls, Walk.run_object]
  refine (congrArg Traced.calls (if_neg (Bool.eq_false_iff.mp h))).trans ?_
  by_cases hany : fields = [] ∧ wildcard = none
  · obtain ⟨rfl, rfl⟩ := hany
    rfl
  · let walk := shaping sh.registry sh.root sh.includeOptional sh.draws
    have hopen : ¬ (((fields.map fun (name, t) => (name, walk.run t)).isEmpty &&
        (wildcard.map walk.run).isNone) = true) := by
      simpa using fun hf => not_and.mp hany hf
    refine (congrArg Traced.calls (if_neg hopen)).trans ?_
    rw [Traced.object, List.flatMap_append, List.map_map, List.flatMap_map]
    cases wildcard with
    | none => rfl
    | some t =>
      simp only [Option.map_some, undeclared_map, List.flatMap_map, Option.toList_some,
        List.flatMap_singleton]
      rfl

/-! ### Where nothing is -/

/-- **Where nothing is, shaping calls nothing**, however much it builds. -/
theorem calls_of_absent {schema : Tree} {place : Place} (hp : place.present = none) :
    sh.calls ⟨schema, place⟩ = [] := by
  induction schema using Tree.induct generalizing place with
  | scalar optional type declared =>
    cases hl : leavesOut sh.includeOptional optional place with
    | true => exact sh.calls_of_leavesOut hl
    | false =>
      rw [sh.calls_scalar hl, hp]
      cases sh.registry.get? type <;> rfl
  | array optional parts ih =>
    cases hl : leavesOut sh.includeOptional optional place with
    | true => exact sh.calls_of_leavesOut hl
    | false =>
      have hitems : place.items = [] := by rw [Place.items, hp]; rfl
      rw [sh.calls_array hl, hitems]
      refine List.flatMap_eq_nil_iff.mpr fun i _ => ?_
      cases ht : nth parts i with
      | none => rfl
      | some t => exact ih t (List.mem_of_getElem? ht) rfl
  | object optional fields wildcard ih ih' =>
    cases hl : leavesOut sh.includeOptional optional place with
    | true => exact sh.calls_of_leavesOut hl
    | false =>
      have hentries : place.entries = [] := by rw [Place.entries, hp]; rfl
      rw [sh.calls_object hl, hentries]
      have hfields : (fields.flatMap fun (name, t) =>
          sh.calls ⟨t, place.field name (List.lookup name [])⟩) = [] :=
        List.flatMap_eq_nil_iff.mpr fun f hf => ih f hf rfl
      rw [hfields]
      cases wildcard <;> rfl

/-- The fields of what has none are absent. -/
theorem calls_absent_fields (fields : List (String × Tree)) (place : Place) :
    (fields.flatMap fun (name, t) => sh.calls ⟨t, place.field name (List.lookup name [])⟩) = [] :=
  List.flatMap_eq_nil_iff.mpr fun _ _ => sh.calls_of_absent rfl

/-! ### Where something is -/

/-- Beyond the items of an array, shaping fills up and calls nothing. -/
theorem calls_items (parts : List Tree) (place : Place) :
    ((List.range (max place.items.length parts.length)).flatMap fun i =>
        ((nth parts i).map fun t => sh.calls ⟨t, place.item i place.items[i]?⟩).getD []) =
      place.items.zipIdx.flatMap fun (v, i) =>
        ((nth parts i).map fun t => sh.calls ⟨t, place.item i (some v)⟩).getD [] := by
  have hitems : (place.items.zipIdx.flatMap fun (v, i) =>
        ((nth parts i).map fun t => sh.calls ⟨t, place.item i (some v)⟩).getD []) =
      (List.range place.items.length).flatMap fun i =>
        ((nth parts i).map fun t => sh.calls ⟨t, place.item i place.items[i]?⟩).getD [] :=
    flatMap_zipIdx fun i v hv => by simp only [hv]
  obtain ⟨more, hmore⟩ := Nat.exists_eq_add_of_le (Nat.le_max_left place.items.length parts.length)
  rw [hitems, hmore, List.range_add, List.flatMap_append, List.flatMap_map]
  refine List.append_right_eq_self.mpr (List.flatMap_eq_nil_iff.mpr fun i _ => ?_)
  have hbeyond : place.items[place.items.length + i]? = none :=
    List.getElem?_eq_none (Nat.le_add_right _ _)
  rw [hbeyond]
  cases nth parts (place.items.length + i) with
  | none => rfl
  | some t => exact sh.calls_of_absent rfl

/-- **Shaping calls what a position calls, and then what those call that it leads
to.** -/
theorem calls_eq (hempty : sh.registry.get? "" = none) (q : Position) :
    sh.calls q = q.calls sh.registry sh.root ++ q.next.flatMap sh.calls := by
  obtain ⟨schema, place⟩ := q
  cases hp : place.present with
  | none =>
    rw [sh.calls_of_absent hp]
    cases schema <;> simp [Position.calls, Position.next, hp]
  | some v =>
    have hl : ∀ optional, leavesOut sh.includeOptional optional place = false :=
      fun _ => leavesOut_of_present hp
    cases schema with
    | scalar optional type declared =>
      rw [sh.calls_scalar (hl optional), hp]
      simp only [Position.calls, Position.next, hp, List.flatMap_nil, List.append_nil,
        Registry.calls]
      by_cases htype : type = ""
      · rw [if_pos htype, htype, hempty]
      · rw [if_neg htype]
        cases sh.registry.get? type <;> rfl
    | array optional parts =>
      rw [sh.calls_array (hl optional), sh.calls_items parts place]
      cases v with
      | arr items =>
        rw [place.items_of_present hp]
        simp only [Position.calls, Position.next, hp, List.nil_append, List.flatMap_assoc]
        refine List.flatMap_congr fun e _ => ?_
        cases nth parts e.2 with
        | none => rfl
        | some t => exact (List.flatMap_singleton _ _).symm
      | _ =>
        -- another value counts as an array without items
        simp [Position.calls, Position.next, Place.items, hp, Value.items?]
    | object optional fields wildcard =>
      rw [sh.calls_object (hl optional)]
      cases v with
      | obj entries =>
        rw [place.entries_of_present hp]
        simp only [Position.calls, Position.next, hp, List.nil_append, List.flatMap_append,
          List.flatMap_map, List.flatMap_assoc]
      | _ =>
        -- the fields of another value are absent
        have hentries : place.entries = [] := by simp [Place.entries, hp, Value.fields?]
        rw [hentries, sh.calls_absent_fields]
        simp [Position.calls, Position.next, hp, undeclared]

/-- Shaping calls what the positions call that it shares with validation. -/
theorem calls_eq_flatMap (hempty : sh.registry.get? "" = none) (q : Position) :
    sh.calls q = q.preorder.flatMap (Position.calls sh.registry sh.root) := by
  induction q using Position.induct with
  | h q ih =>
    rw [sh.calls_eq hempty, Position.preorder_eq, List.flatMap_cons, List.flatMap_assoc]
    congr 1
    exact List.flatMap_congr fun q' hq' => ih q' (Position.mem_next.mp hq')

end Shaper

/-! ### Whole values -/

/-- **Both walks call the same checks.**  If the types of a schema are known and the
empty name has no meaning, shaping a value calls custom checks on the same values,
at the same paths, within the same parents and in the same order as validating it
does, whether or not absent optional parts are built. -/
theorem calls_shape_eq_calls_validate {schema : Arena} {registry : Registry}
    (hknown : registry.ensureKnown schema.types = .ok ()) (hempty : registry.get? "" = none)
    (v : Value) (includeOptional : Bool) (draws : Path → Nat) :
    (shape v schema registry includeOptional draws).calls =
      (validate v schema registry Path.defaultRoot).calls := by
  let sh : Shaper := ⟨registry, v, includeOptional, draws⟩
  let start := Position.start schema.tree v Path.defaultRoot
  calc (shape v schema registry includeOptional draws).calls
      = sh.calls start := rfl
    _ = start.preorder.flatMap (Position.calls registry v) := sh.calls_eq_flatMap hempty start
    _ = (validate v schema registry Path.defaultRoot).calls :=
        (calls_validate hknown v Path.defaultRoot).symm

/-- The schema `[?odd,{p:odd,*:[odd,?odd]}]`, compiled. -/
def oddSchema : Arena where
  nodes := [.scalar true "odd" none, .scalar false "odd" none, .array false [1, 0],
    .object false [("p", 1)] (some 2), .array false [0, 3]]
  root := 4

/-- Odd integers, which in an object are allowed only if it has at most two keys. -/
def oddType : TypeDef :=
  .predicate fun v ctx => match v, ctx.parent with
    | .num (.int z), some (.obj fields) => z % 2 = 1 && fields.length ≤ 2
    | .num (.int z), _ => z % 2 = 1
    | _, _ => false

/-- A document with items beyond the pattern, absent fields and another kind of
value where an array is called for. -/
def oddValue : Value :=
  .arr [.null, .obj [("x", .arr [.int 3]), ("y", .str "no array")], .int 2]

theorem calls_oddValue :
    (shape oddValue oddSchema ⟨[("odd", oddType)]⟩ true fun _ => 0).calls =
        (validate oddValue oddSchema ⟨[("odd", oddType)]⟩ Path.defaultRoot).calls ∧
      (validate oddValue oddSchema ⟨[("odd", oddType)]⟩ Path.defaultRoot).calls =
        [⟨"odd", .int 3, ⟨⟨"json", [.item 1, .field "x", .item 0]⟩, oddValue,
            some (.arr [.int 3])⟩⟩,
          ⟨"odd", .int 2, ⟨⟨"json", [.item 2]⟩, oddValue, some oddValue⟩⟩] := by
  refine ⟨calls_shape_eq_calls_validate (by decide) ?_ oddValue true _, by decide⟩
  exact Option.isNone_iff_eq_none.mp (by decide)

end TerseSchema
