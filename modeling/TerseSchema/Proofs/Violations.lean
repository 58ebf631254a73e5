import TerseSchema.Proofs.Records
import TerseSchema.Proofs.Shaped
import TerseSchema.Proofs.Traversal

/-!
# Validation reports exactly the violations

Whether a position is violated, and how, is said by what its schema meets there.
The records of a validation are those violations, one for each position that is
violated, in the order of the walk; the path of a record leads from the value to
what the position meets.

## Main definitions

* `Position.violation?` — what is wrong at a position itself.
* `Position.record?` — its record.

## Main results

* `filterMap_findings` — what is found at a position has the record of the position.
* `at?_of_reaches` — a path leads to what its position meets.
* `validate_eq_violations` — **validation reports exactly the violations.**
-/

namespace TerseSchema

namespace Position

variable {registry : Registry} {root : Value}

/-- What is wrong at a position itself.  Nothing is wrong where nothing is and the
schema is optional. -/
def violation? (registry : Registry) (root : Value) (q : Position) : Option Violation :=
  if q.place.present = none ∧ q.schema.optional = true then none
  else match q.schema, q.place.present with
    | .scalar _ _ _, none => some .required
    | .scalar _ type _, some v =>
      if registry.check type v ⟨q.place.path, root, q.place.parent⟩ = .ok false then
        some .validationFailed
      else none
    | .array _ _, some (.arr _) => none
    | .array _ _, _ => some .shouldBeArray
    | .object _ _ _, some (.obj _) => none
    | .object _ _ _, _ => some .shouldBeObject

/-- The record of a position. -/
def record? (registry : Registry) (root : Value) (q : Position) : Option Record :=
  (q.violation? registry root).map fun violation => ⟨q.place.path, violation⟩

/-! ### One position -/

theorem filterMap_missing (optional : Bool) (place : Place) (violation : Violation) :
    (missing optional place violation).filterMap Finding.record? =
      ((if optional = true then none else some violation).map fun violation =>
        (⟨place.path, violation⟩ : Record)).toList := by
  cases optional with
  | true => rfl
  | false => rfl

theorem filterMap_checked {type : String} (hmeans : registry.Means type) (v : Value)
    (ctx : Context) :
    (checked registry type v ctx).filterMap Finding.record? =
      ((if registry.check type v ctx = .ok false then some Violation.validationFailed
        else none).map fun violation => (⟨ctx.path, violation⟩ : Record)).toList := by
  have hcalls : ((registry.calls type v ctx).map Finding.called).filterMap Finding.record? = [] :=
    List.filterMap_eq_nil_iff.mpr <| List.forall_mem_map.mpr fun _ _ => rfl
  obtain ⟨b, hb⟩ := hmeans.check v ctx
  rw [checked, List.filterMap_append, hcalls, List.nil_append, hb]
  cases b with
  | true => rfl
  | false => rfl

/-- **What is found at a position has the record of the position**, and no other. -/
theorem filterMap_findings {q : Position}
    (hmeans : q.schema.AllScalars fun _ type _ => registry.Means type) :
    (q.findings registry root).filterMap Finding.record? =
      (q.record? registry root).toList := by
  obtain ⟨schema, place⟩ := q
  unfold record? violation? findings
  cases hp : place.present with
  | none =>
    -- an optional schema admits that nothing is there
    cases schema with
    | scalar optional type declared =>
      simp only [Tree.optional, true_and]
      exact filterMap_missing optional place .required
    | array optional parts =>
      simp only [Tree.optional, true_and]
      exact filterMap_missing optional place .shouldBeArray
    | object optional fields wildcard =>
      simp only [Tree.optional, true_and]
      exact filterMap_missing optional place .shouldBeObject
  | some v =>
    simp only [reduceCtorEq, false_and, if_false]
    cases hmeans with
    | scalar hmeans => exact filterMap_checked hmeans v _
    | array _ => cases v <;> rfl
    | object _ _ => cases v <;> rfl

/-! ### The path of a position -/

/-- **A path leads from the value to what its position meets.** -/
theorem at?_of_reaches {schema : Tree} {v : Value} {pathRoot : String} {q : Position}
    (hstart : (start schema v pathRoot).Proper) (h : (start schema v pathRoot).Reaches q) :
    q.place.path.root = pathRoot ∧ v.at? q.place.path.steps = q.place.value := by
  obtain ⟨steps, hpath⟩ := h.path
  exact ⟨by rw [hpath]; rfl, at?_of_contains hstart h.contains⟩

end Position

/-! ### The records of a validation -/

/-- **Validation reports exactly the violations.**  The positions that are reached
stand in one list, depth first and each of them once.  The path of a position is
the name of the value and the steps that lead from there to what the position
meets.  Validating a document under a compiled schema whose types are known gives,
in the order of the list, one record for every position that is violated. -/
theorem validate_eq_violations {s : FlatSchema} {schema : Arena} (hs : compile s = .ok schema)
    {registry : Registry} (hknown : registry.ensureKnown schema.types = .ok ()) {v : Value}
    (hv : v.Proper) (pathRoot : String) :
    let start := Position.start schema.tree v pathRoot
    start.preorder.Nodup ∧ (∀ q, q ∈ start.preorder ↔ start.Reaches q) ∧
      (∀ q ∈ start.preorder,
        q.place.path.text = ".".intercalate (pathRoot :: q.place.path.steps.map Step.text) ∧
          v.at? q.place.path.steps = q.place.value) ∧
      (validate v schema registry pathRoot).answer =
        .ok (start.preorder.filterMap (Position.record? registry v)) := by
  intro start
  have hstart : start.Proper := by
    refine ⟨proper_of_compile hs, ?_⟩
    rintro _ ⟨⟩
    exact hv
  have hmeans := allScalars_known hknown
  refine ⟨Position.nodup_preorder hstart, fun q => Position.mem_preorder, fun q hq => ?_, ?_⟩
  · obtain ⟨hroot, hat⟩ := Position.at?_of_reaches hstart (Position.mem_preorder.mp hq)
    exact ⟨by rw [Path.text, hroot], hat⟩
  · rw [Position.answer_validate hknown, Position.validated_eq_flatMap, List.filterMap_flatMap,
      List.filterMap_eq_flatMap_toList]
    congr 1
    refine List.flatMap_congr fun q hq => Position.filterMap_findings ?_
    exact Position.allScalars_reaches hmeans (Position.mem_preorder.mp hq)

/-- The schema `{a:[i,?s],q:n,*:b}`, flat and compiled. -/
def mixedFlat : FlatSchema := ⟨['1'], ["[i,?s]".toList, "{a:0,q:n,*:b}".toList], []⟩

@[inherit_doc mixedFlat] def mixedSchema : Arena where
  nodes := [.scalar false "i" none, .scalar true "s" none, .array false [0, 1],
    .scalar false "n" none, .scalar false "b" none,
    .object false [("a", 2), ("q", 3)] (some 4)]
  root := 5

/-- A document with violations at items, at a missing field and at another key. -/
def mixedValue : Value :=
  .obj [("z", .int 1), ("a", .arr [.str "x", .null, .int 2, .int 5]), ("y", .bool true)]

theorem violations_mixedValue :
    (Position.start mixedSchema.tree mixedValue "doc").preorder.Nodup ∧
      (Position.start mixedSchema.tree mixedValue "doc").preorder.filterMap
          (Position.record? .builtin mixedValue) =
        [⟨⟨"doc", [.field "a", .item 0]⟩, .validationFailed⟩,
          ⟨⟨"doc", [.field "a", .item 3]⟩, .validationFailed⟩,
          ⟨⟨"doc", [.field "q"]⟩, .required⟩,
          ⟨⟨"doc", [.field "z"]⟩, .validationFailed⟩] := by
  have hcompile : compile mixedFlat = .ok mixedSchema :=
    compile_of_groups [.array [⟨false, .scalar "i" none⟩, ⟨true, .scalar "s" none⟩],
      .object [("a", ⟨false, .reference 0⟩), ("q", ⟨false, .scalar "n" none⟩),
        ("*", ⟨false, .scalar "b" none⟩)]] ⟨false, .reference 1⟩
      (by decide) (by decide) (by decide)
  have hproper : mixedValue.Proper := by
    refine .obj (by decide) ?_
    simp only [List.forall_mem_cons]
    refine ⟨.num _, .arr ?_, .bool true, List.forall_mem_nil _⟩
    simp only [List.forall_mem_cons]
    exact ⟨.str _, .null, .num _, .num _, List.forall_mem_nil _⟩
  have hknown : Registry.builtin.ensureKnown mixedSchema.types = .ok () := by decide
  obtain ⟨hnodup, -, -, hanswer⟩ := validate_eq_violations hcompile hknown hproper "doc"
  refine ⟨hnodup, Except.ok.inj (hanswer.symm.trans ?_)⟩
  decide

end TerseSchema
