import TerseSchema.Proofs.Rerooting

/-!
# Scalars without a type

A scalar without a type stands for every value that is there.  Validation tells it by its
empty name and looks nothing up.  Shaping looks every name up, so that for the empty one it
goes by whatever a registry has under it: an entry there may reject a value that validation
has nothing against.

## Main results

* `Position.Contains.reaches_of_present` — where something is, shaping comes only where
  validation does.
* `Position.findings_untyped`, `Shaper.shaped_untyped` — what either walk does there.
* `untyped_kept_iff` — **no record is made of a value without a type, and it is kept exactly
  if no entry under the empty name stands in its way.**
* `untyped_value_is_replaced` — an entry that does.
-/

namespace TerseSchema

/-! ### Where something is -/

theorem Place.present_of_mem_items {place : Place} {v : Value} (h : v ∈ place.items) :
    place.present = some (.arr place.items) := by
  rw [items] at h ⊢
  cases hp : place.present with
  | none =>
    rw [hp] at h
    cases h
  | some w =>
    rw [hp] at h
    cases w with
    | arr items => rfl
    | _ => cases h

theorem Place.present_of_mem_entries {place : Place} {e : String × Value} (h : e ∈ place.entries) :
    place.present = some (.obj place.entries) := by
  rw [entries] at h ⊢
  cases hp : place.present with
  | none =>
    rw [hp] at h
    cases h
  | some w =>
    rw [hp] at h
    cases w with
    | obj entries => rfl
    | _ => cases h

namespace Position

variable {q q' : Position} {v : Value}

/-- A step of validation starts where something is. -/
theorem Next.exists_present (h : Next q q') : ∃ v, q.place.present = some v := by
  cases h with
  | item hp _ _ => exact ⟨_, hp⟩
  | field hp _ => exact ⟨_, hp⟩
  | other hp _ => exact ⟨_, hp⟩

/-- A step of shaping to where something is, is a step of validation. -/
theorem Inside.next_of_present (h : Inside q q') (hv : q'.place.present = some v) :
    Next q q' := by
  have hvalue := Place.value_of_present hv
  cases h with
  | @item optional parts place i t _ _ ht =>
    have hi : place.items[i]? = some v := hvalue
    rw [hi]
    exact .item (Place.present_of_mem_items (List.mem_of_getElem? hi)) hi ht
  | @field optional fields wildcard place name t _ hf =>
    have hmem : (name, v) ∈ place.entries := Table.mem_of_lookup_eq_some hvalue
    exact .field (Place.present_of_mem_entries hmem) hf
  | other _ hmem => exact .other (Place.present_of_mem_entries (mem_undeclared.mp hmem).1) hmem

/-- **Where something is, shaping comes only where validation does.** -/
theorem Contains.reaches_of_present (h : q.Contains q') (hv : q'.place.present = some v) :
    q.Reaches q' := by
  induction h generalizing v with
  | refl => exact .refl
  | tail _ hstep ih =>
    have hnext := hstep.next_of_present hv
    obtain ⟨w, hw⟩ := hnext.exists_present
    exact .tail (ih hw) hnext

/-- A walk stands at the same positions under another name. -/
theorem Reaches.reroot (h : q.Reaches q') (name : String) :
    (q.reroot name).Reaches (q'.reroot name) := by
  induction h with
  | refl => exact .refl
  | tail _ hstep ih =>
    refine .tail ih (mem_next.mp ?_)
    rw [next_reroot]
    exact List.mem_map_of_mem (mem_next.mpr hstep)

end Position

/-! ### A value without a type -/

section
variable {optional : Bool} {declared : Option Default} {place : Place} {u : Value}

/-- Nothing is found at a value without a type, whatever a registry has. -/
theorem Position.findings_untyped (registry : Registry) (root : Value)
    (hu : place.present = some u) :
    findings registry root ⟨.scalar optional "" declared, place⟩ = [] := by
  simp only [findings, hu, checked, Registry.calls, Registry.check, if_true]
  rfl

/-- A value without a type is kept, unless an entry under the empty name rejects it. -/
theorem Shaper.shaped_untyped (sh : Shaper) (hu : place.present = some u) :
    sh.shaped ⟨.scalar optional "" declared, place⟩ =
      match sh.registry.get? "" with
      | none => u
      | some type =>
        if type.check u ⟨place.path, sh.root, place.parent⟩ then u
        else fallback type declared (sh.draws place.path) := by
  rw [sh.shaped_scalar (leavesOut_of_present hu), hu]
  cases sh.registry.get? "" <;> rfl

/-- There is no record of a value without a type, whatever the value that it belongs to is
called. -/
theorem exists_records_untyped {s : FlatSchema} {schema : Arena} (hs : compile s = .ok schema)
    {registry : Registry} (hknown : registry.ensureKnown schema.types = .ok ()) {v : Value}
    (hv : v.Proper) {name : String}
    (hq : (Position.start schema.tree v name).Reaches ⟨.scalar optional "" declared, place⟩)
    (hu : place.present = some u) (pathRoot : String) :
    ∃ records, (validate v schema registry pathRoot).answer = .ok records ∧
      ∀ r ∈ records, r.path ≠ place.path.reroot pathRoot := by
  obtain ⟨records, hrecords, hmem⟩ := Position.exists_records hknown v pathRoot
  refine ⟨records, hrecords, fun r hr hpath => ?_⟩
  obtain ⟨q, hreach, hfound⟩ := (hmem r).mp hr
  -- a record with the path of the scalar would be found at the scalar itself
  have hsame := (Position.path_of_violated hfound).symm.trans hpath
  obtain rfl := hreach.eq_of_path (Position.proper_start hs hv pathRoot) (hq.reroot pathRoot) hsame
  have hnone : Position.findings registry v
      ⟨.scalar optional "" declared, place.reroot pathRoot⟩ = [] :=
    Position.findings_untyped registry v hu
  rw [Position.reroot, hnone] at hfound
  cases hfound

/-- **A value without a type is never reported, and is kept exactly if no entry under the
empty name stands in its way.**  Consider a compiled schema, a registry that gives a meaning to
all its other names, and a document.  Wherever shaping comes to a value that is there and a
scalar without a type, validation makes no record of the place.  The shaped document has the
value itself there, unless the registry has an entry under the empty name that rejects it: then
it has the default or a sample of that entry, which may be the same value. -/
theorem untyped_kept_iff {s : FlatSchema} {schema : Arena} (hs : compile s = .ok schema)
    {registry : Registry} (hknown : registry.ensureKnown schema.types = .ok ()) {v : Value}
    (hv : v.Proper) (includeOptional : Bool) (draws : Path → Nat)
    (hq : (Position.start schema.tree v Path.defaultRoot).Contains
      ⟨.scalar optional "" declared, place⟩) (hu : place.present = some u) :
    (∀ pathRoot, ∃ records, (validate v schema registry pathRoot).answer = .ok records ∧
      ∀ r ∈ records, r.path ≠ place.path.reroot pathRoot) ∧
    ∃ w, (shape v schema registry includeOptional draws).answer.at? place.path.steps = some w ∧
      (w = u ↔ ∀ type, registry.get? "" = some type →
        type.check u ⟨place.path, v, place.parent⟩ = true ∨
          fallback type declared (draws place.path) = u) ∧
      ∀ type, registry.get? "" = some type →
        type.check u ⟨place.path, v, place.parent⟩ = false →
          w = fallback type declared (draws place.path) := by
  let sh : Shaper := ⟨registry, v, includeOptional, draws⟩
  refine ⟨exists_records_untyped hs hknown hv (hq.reaches_of_present hu) hu, ?_⟩
  obtain ⟨steps, hsteps, hat⟩ := sh.at?_shaped_of_contains (Position.proper_start hs hv _) hq
  obtain rfl : place.path.steps = steps := hsteps
  have hshaped : sh.shaped ⟨.scalar optional "" declared, place⟩ = _ := sh.shaped_untyped hu
  refine ⟨_, hat, ?_, ?_⟩
  · rw [hshaped]
    show (match registry.get? "" with | none => u | some type => _) = u ↔ _
    cases registry.get? "" with
    | none => exact iff_of_true rfl nofun
    | some type =>
      simp only [Option.some.injEq, forall_eq']
      split
      · next haccepts => exact iff_of_true rfl (.inl haccepts)
      · next hrejects => exact ⟨.inr, fun h => h.resolve_left hrejects⟩
  · intro type hget hrejects
    rw [hshaped]
    simp only [sh, hget, hrejects]
    rfl

end

/-- The schema `{a,b:[i,]}`, flat and compiled. -/
def openFlat : FlatSchema := ⟨['1'], ["[i,]".toList, "{a,b:0}".toList], []⟩

@[inherit_doc openFlat] def openSchema : Arena where
  nodes := [.scalar false "" none, .scalar false "i" none, .scalar false "" none,
    .array false [1, 2], .object false [("a", 0), ("b", 3)] none]
  root := 4

/-- The builtin kinds, and texts under the empty name. -/
def textsOnly : Registry := .snapshot [] [("", .predicate fun v _ => v.isText)]

/-- A document with a number and a text where the schema has no type. -/
def openValue : Value := .obj [("a", .int 5), ("b", .arr [.int 1, .str "x"])]

theorem proper_openValue : openValue.Proper := by
  refine .obj (by decide) ?_
  simp only [List.forall_mem_cons]
  refine ⟨.num _, .arr ?_, List.forall_mem_nil _⟩
  simp only [List.forall_mem_cons]
  exact ⟨.num _, .str _, List.forall_mem_nil _⟩

/-- The places of the document that its root leads to. -/
theorem next_openValue (root : String) :
    (Position.start openSchema.tree openValue root).next =
      [⟨.scalar false "" none, ⟨some (.int 5), ⟨root, [.field "a"]⟩, some openValue⟩⟩,
        ⟨.array false [.scalar false "i" none, .scalar false "" none],
          ⟨some (.arr [.int 1, .str "x"]), ⟨root, [.field "b"]⟩, some openValue⟩⟩] := rfl

theorem untyped_kept_iff_openValue :
    (∃ records, (validate openValue openSchema textsOnly "doc").answer = .ok records ∧
      ∀ r ∈ records, r.path ≠ ⟨"doc", [.field "b", .item 1]⟩) ∧
    (shape openValue openSchema textsOnly false fun _ => 0).answer.at? [.field "b", .item 1] =
      some (.str "x") ∧
    (shape openValue openSchema textsOnly false fun _ => 0).answer.at? [.field "a"] =
      some .null := by
  have hcompile : compile openFlat = .ok openSchema := by decide
  have hknown : textsOnly.ensureKnown openSchema.types = .ok () := by decide
  have hnext := next_openValue Path.defaultRoot
  have ha : Position.Next _ _ := Position.mem_next.mp (hnext ▸ List.mem_cons_self)
  have hb : Position.Next _ _ :=
    Position.mem_next.mp (hnext ▸ List.mem_cons_of_mem _ (List.mem_singleton_self _))
  have hitem := @Position.Next.item false [.scalar false "i" none, .scalar false "" none]
    ⟨some (.arr [.int 1, .str "x"]), ⟨"json", [.field "b"]⟩, some openValue⟩
    [.int 1, .str "x"] 1 (.str "x") (.scalar false "" none) rfl rfl rfl
  obtain ⟨hrecords, w, hw, hkept, -⟩ := untyped_kept_iff hcompile hknown proper_openValue false
    (fun _ => 0) (.tail (.single hb.inside) hitem.inside) rfl
  obtain ⟨-, w', hw', -, hreplaced⟩ := untyped_kept_iff hcompile hknown proper_openValue false
    (fun _ => 0) (.single ha.inside) rfl
  have haccepts : ∀ type, textsOnly.get? "" = some type →
      ∀ ctx, type.check (.str "x") ctx = true := by
    intro type h ctx
    cases h
    rfl
  refine ⟨hrecords "doc", ?_, ?_⟩
  · rw [hkept.mpr fun type h => .inl (haccepts type h _)] at hw
    exact hw
  · rw [hreplaced (.predicate fun v _ => v.isText) rfl rfl] at hw'
    exact hw'

/-- **A value without a type is replaced although nothing is wrong with it**: validation has no
record of the document, and shaping drops the number. -/
theorem untyped_value_is_replaced :
    flatten "{a,b:[i,]}" = .ok openFlat ∧ compile openFlat = .ok openSchema ∧
    textsOnly.ensureKnown openSchema.types = .ok () ∧ openValue.Proper ∧
    (validate openValue openSchema textsOnly Path.defaultRoot).answer = .ok [] ∧
    openValue.at? [.field "a"] = some (.int 5) ∧
    (shape openValue openSchema textsOnly false fun _ => 0).answer.at? [.field "a"] =
      some .null ∧
    (Position.start openSchema.tree openValue Path.defaultRoot).Reaches
      ⟨.scalar false "" none, ⟨some (.int 5), ⟨"json", [.field "a"]⟩, some openValue⟩⟩ := by
  have hreach := Position.mem_next.mp (next_openValue Path.defaultRoot ▸ List.mem_cons_self)
  refine ⟨?_, ?_, ?_, proper_openValue, ?_, rfl, ?_, .single hreach⟩
  · decide
  · decide
  · decide
  · decide
  · decide

end TerseSchema
