import TerseSchema.Proofs.Conformance
import TerseSchema.Proofs.Layers

/-!
# The name of a value

The name that is given to a value begins every path of a walk over it.  Two walks over one
value under two names stand at the same positions, and find the same under paths that
begin differently: calls, violations and faults, one by one.  Only a custom check could
tell the two apart, as it may look at the path.

## Main definitions

* `Path.reroot`, `Position.reroot`, `Finding.reroot` — the same under another name.
* `Registry.IgnoresRoot` — no check looks at the name of the value.

## Main results

* `Position.next_reroot`, `Position.findings_reroot` — one step of a walk under another name.
* `Position.validated_reroot` — **a whole walk finds the same under another name.**
* `validate_reroot` — **validation answers the same under another name.**
* `Session.verify_reroot`, `Session.check_reroot` — and so does what is asked of a session.
-/

namespace TerseSchema

/-! ### Another name -/

/-- The same path from a value with another name. -/
def Path.reroot (name : String) (p : Path) : Path := { p with root := name }

/-- The same place in a value with another name. -/
def Place.reroot (name : String) (p : Place) : Place := { p with path := p.path.reroot name }

/-- The same position in a value with another name. -/
def Position.reroot (name : String) (q : Position) : Position :=
  { q with place := q.place.reroot name }

/-- What a check may look at, in a value with another name. -/
def Context.reroot (name : String) (ctx : Context) : Context :=
  { ctx with path := ctx.path.reroot name }

/-- The same call in a value with another name. -/
def Call.reroot (name : String) (call : Call) : Call :=
  { call with context := call.context.reroot name }

/-- The same violation in a value with another name. -/
def Record.reroot (name : String) (r : Record) : Record := { r with path := r.path.reroot name }

/-- The same finding in a value with another name. -/
def Finding.reroot (name : String) : Finding → Finding
  | .called call => .called (call.reroot name)
  | .violated record => .violated (record.reroot name)
  | .faulted error => .faulted error

/-- The same rejection of a value with another name. -/
def Rejection.reroot (name : String) : Rejection → Rejection
  | .schema error => .schema error
  | .violations records => .violations (records.map (Record.reroot name))

/-- No check looks at the name of the value. -/
def Registry.IgnoresRoot (registry : Registry) : Prop :=
  ∀ type known, registry.get? type = some known → ∀ v ctx name,
    known.check v (ctx.reroot name) = known.check v ctx

/-! ### Walks under another name -/

section
variable {registry : Registry} {root : Value} {name : String}

theorem Registry.IgnoresRoot.check (h : registry.IgnoresRoot) (type : String) (v : Value)
    (ctx : Context) : registry.check type v (ctx.reroot name) = registry.check type v ctx := by
  rw [Registry.check, Registry.check]
  cases hget : registry.get? type with
  | none => rfl
  | some known => simp only [h type known hget]

theorem Registry.calls_reroot (type : String) (v : Value) (ctx : Context) :
    registry.calls type v (ctx.reroot name) =
      (registry.calls type v ctx).map (Call.reroot name) := by
  rw [Registry.calls, Registry.calls]
  split
  · rfl
  · cases registry.get? type with
    | none => rfl
    | some known => cases known <;> rfl

theorem missing_reroot (optional : Bool) (place : Place) (violation : Violation) :
    missing optional (place.reroot name) violation =
      (missing optional place violation).map (Finding.reroot name) := by
  cases optional <;> rfl

theorem checked_reroot (h : registry.IgnoresRoot) (type : String) (v : Value) (ctx : Context) :
    checked registry type v (ctx.reroot name) =
      (checked registry type v ctx).map (Finding.reroot name) := by
  rw [checked, checked, List.map_append, Registry.calls_reroot, h.check, List.map_map,
    List.map_map]
  congr 1
  cases registry.check type v ctx with
  | error e => rfl
  | ok accepted => cases accepted <;> rfl

namespace Position

/-- What is found at a position is found there under another name. -/
theorem findings_reroot (h : registry.IgnoresRoot) (q : Position) :
    (q.reroot name).findings registry root =
      (q.findings registry root).map (Finding.reroot name) := by
  obtain ⟨schema, place⟩ := q
  have hpresent : (place.reroot name).present = place.present := rfl
  cases hp : place.present with
  | none => cases schema <;> simp only [findings, reroot, hpresent, hp, missing_reroot]
  | some v =>
    cases schema with
    | scalar optional type declared =>
      simp only [findings, reroot, hpresent, hp]
      exact checked_reroot h type v ⟨place.path, root, place.parent⟩
    | array optional parts =>
      simp only [findings, reroot, hpresent, hp]
      split <;> rfl
    | object optional fields wildcard =>
      simp only [findings, reroot, hpresent, hp]
      split <;> rfl

/-- **One step of a walk**: a position leads to the same ones under another name. -/
theorem next_reroot (q : Position) : (q.reroot name).next = q.next.map (reroot name) := by
  obtain ⟨schema, place⟩ := q
  have hpresent : (place.reroot name).present = place.present := rfl
  cases hp : place.present with
  | none => cases schema <;> simp [next, reroot, hpresent, hp]
  | some v =>
    cases schema with
    | scalar => rfl
    | array optional parts =>
      cases v with
      | arr items =>
        simp only [next, reroot, hpresent, hp, List.map_flatMap]
        refine List.flatMap_congr fun e _ => ?_
        cases nth parts e.2 <;> rfl
      | _ => simp [next, reroot, hpresent, hp]
    | object optional fields wildcard =>
      cases v with
      | obj entries =>
        simp only [next, reroot, hpresent, hp, List.map_append, List.map_map, List.map_flatMap]
        rfl
      | _ => simp [next, reroot, hpresent, hp]

/-- **A whole walk finds the same under another name.** -/
theorem validated_reroot (h : registry.IgnoresRoot) (q : Position) :
    (q.reroot name).validated registry root =
      (q.validated registry root).map (Finding.reroot name) := by
  induction q using Position.induct with
  | h q ih =>
    rw [validated_eq, validated_eq registry root q, List.map_append, findings_reroot h, next_reroot,
      List.flatMap_map, List.map_flatMap]
    congr 1
    exact List.flatMap_congr fun q' hq' => ih q' (mem_next.mp hq')

end Position

/-! ### Answers under another name -/

namespace Finding

theorem error?_comp_reroot : error? ∘ reroot name = error? := by
  funext f
  cases f <;> rfl

theorem record?_comp_reroot :
    record? ∘ reroot name = fun f => f.record?.map (Record.reroot name) := by
  funext f
  cases f <;> rfl

theorem call?_comp_reroot : call? ∘ reroot name = fun f => f.call?.map (Call.reroot name) := by
  funext f
  cases f <;> rfl

end Finding

/-- **Validation answers the same under another name.** -/
theorem validate_reroot (h : registry.IgnoresRoot) (v : Value) (schema : Arena)
    (pathRoot name : String) : validate v schema registry name =
      ⟨(validate v schema registry pathRoot).answer.map (List.map (Record.reroot name)),
        (validate v schema registry pathRoot).calls.map (Call.reroot name)⟩ := by
  have hwalk : (validation registry v).run schema.tree ⟨some v, ⟨name, []⟩, none⟩ =
      ((validation registry v).run schema.tree ⟨some v, ⟨pathRoot, []⟩, none⟩).map
        (Finding.reroot name) :=
    Position.validated_reroot h (Position.start schema.tree v pathRoot)
  rw [validate, validate]
  cases registry.ensureKnown schema.types with
  | error e => rfl
  | ok _ =>
    simp only [hwalk, List.findSome?_map, List.filterMap_map, Finding.error?_comp_reroot,
      Finding.record?_comp_reroot, Finding.call?_comp_reroot, List.map_filterMap]
    cases List.findSome? Finding.error?
        ((validation registry v).run schema.tree ⟨some v, ⟨pathRoot, []⟩, none⟩) with
    | some e => rfl
    | none => simp only [Except.map, List.map_filterMap]

namespace Session

variable {s : Session} {types : List (String × TypeDef)}

/-- **What a session says of a value, it says under every name**: the value is accepted,
the schema is at fault, or the same places are violated. -/
theorem verify_reroot (h : (s.registry types).IgnoresRoot) (v : Value)
    (text pathRoot name : String) : (s.verify v text ⟨name, types⟩).answer =
      (s.verify v text ⟨pathRoot, types⟩).answer.mapError (Rejection.reroot name) := by
  rw [verify, verify]
  split
  · cases compileText text with
    | error e => rfl
    | ok schema =>
      simp only [validate_reroot h v schema pathRoot name]
      cases (validate v schema (s.registry types) pathRoot).answer with
      | error e => rfl
      | ok records => cases records <;> rfl
  · rfl

theorem check_reroot (h : (s.registry types).IgnoresRoot) (v : Value)
    (text pathRoot name : String) : (s.check v text ⟨name, types⟩).answer =
      (s.check v text ⟨pathRoot, types⟩).answer := by
  rw [check, check]
  simp only [verify_reroot h v text pathRoot name]
  cases (s.verify v text ⟨pathRoot, types⟩).answer with
  | ok _ => rfl
  | error rejection => cases rejection <;> rfl

end Session

end

/-! ### Types that ignore the name -/

/-- Kinds and enumerations look at the value only. -/
theorem Registry.ignoresRoot_snapshot {types types' : List (String × TypeDef)}
    (h : ∀ e ∈ types, ∃ members, e.2 = .enum members)
    (h' : ∀ e ∈ types', ∃ members, e.2 = .enum members) :
    (Registry.snapshot types types').IgnoresRoot := by
  intro type known hget
  -- what a name means is found in one of the three tables
  have hknown : (∃ members, known = .enum members) ∨ ∃ kind, known = .primitive kind := by
    rw [get?_snapshot, Option.or_eq_some_iff, Option.or_eq_some_iff] at hget
    rcases hget with hget | ⟨-, hget | ⟨-, hget⟩⟩
    · exact .inl (h' _ (List.mem_reverse.mp (Table.mem_of_lookup_eq_some hget)))
    · exact .inl (h _ (List.mem_reverse.mp (Table.mem_of_lookup_eq_some hget)))
    · exact .inr (Registry.exists_kind hget)
  rcases hknown with ⟨members, rfl⟩ | ⟨kind, rfl⟩
  · exact fun _ _ _ => rfl
  · exact fun _ _ _ => rfl

end TerseSchema
