import TerseSchema.Proofs.SideBySide

/-!
# Schemas with more optional parts

Marking more of a schema as optional waives demands and makes none.  The two schemas are
walked side by side: they meet the same places, and a record of the stricter one is
missing from those of the looser one exactly where nothing is there and only the looser
one does not mind.

## Main definitions

* `Tree.Loosens` — one schema is another one but for further optional marks.
* `Position.Waives`, `waived` — where the looser schema alone does not mind that nothing
  is there.

## Main results

* `Position.Loosened.record?_eq` — the record of a position, if it is not waived.
* `validate_loosened` — **further optional marks remove records, and only those of the
  positions that they waive.**
-/

namespace TerseSchema

/-- The second schema is the first one but for nodes that are optional in the second one
only. -/
inductive Tree.Loosens : Tree → Tree → Prop
  | scalar {optional optional' : Bool} {type : String} {declared : Option Default} :
      (optional → optional') →
      Loosens (.scalar optional type declared) (.scalar optional' type declared)
  | array {optional optional' : Bool} {parts parts' : List Tree} : (optional → optional') →
      List.Forall₂ Loosens parts parts' →
      Loosens (.array optional parts) (.array optional' parts')
  | object {optional optional' : Bool} {fields fields' : List (String × Tree)}
      {wildcard wildcard' : Option Tree} : (optional → optional') →
      Table.names fields = Table.names fields' →
      (∀ f f', (f, f') ∈ fields.zip fields' → Loosens f.2 f'.2) →
      Option.Rel Loosens wildcard wildcard' →
      Loosens (.object optional fields wildcard) (.object optional' fields' wildcard')

theorem Tree.Loosens.demand_eq {t t' : Tree} (h : t.Loosens t') : t.demand = t'.demand := by
  cases h <;> rfl

theorem Tree.Loosens.optional {t t' : Tree} (h : t.Loosens t') : t.optional → t'.optional := by
  cases h <;> assumption

/-! ### Parts side by side -/

theorem rel_toList {α β : Type} {R : α → β → Prop} {x : Option α} {y : Option β}
    (h : Option.Rel R x y) : List.Forall₂ R x.toList y.toList := by
  cases h with
  | none => exact .nil
  | some h => exact .cons h .nil

/-- Parts that are related one by one are related wherever they are repeated. -/
theorem rel_nth {α β : Type} {R : α → β → Prop} {parts : List α} {parts' : List β}
    (h : List.Forall₂ R parts parts') (i : Nat) : Option.Rel R (nth parts i) (nth parts' i) := by
  rw [nth, nth, h.length_eq]
  exact rel_getElem? h _

namespace Position

/-- Two positions at the same place, the second with a schema that loosens the first. -/
structure Loosened (q q' : Position) : Prop where
  place : q.place = q'.place
  schema : q.schema.Loosens q'.schema

/-- Loosened positions are one place with two schemas. -/
theorem Loosened.schemas {q q' : Position} (h : Loosened q q') :
    ∃ schema schema' place, q = ⟨schema, place⟩ ∧ q' = ⟨schema', place⟩ ∧
      schema.Loosens schema' := by
  obtain ⟨schema, place⟩ := q
  obtain ⟨schema', place'⟩ := q'
  obtain rfl : place = place' := h.place
  exact ⟨schema, schema', place, rfl, rfl, h.schema⟩

/-- Nothing is there, and the second schema alone does not mind. -/
def Waives (q q' : Position) : Prop :=
  q.place.present = none ∧ q.schema.optional = false ∧ q'.schema.optional = true

instance (q q' : Position) : Decidable (Waives q q') := inferInstanceAs (Decidable (_ ∧ _ ∧ _))

/-! ### One step -/

/-- **One step of two walks**: loosened positions lead to loosened positions, pair by
pair. -/
theorem Loosened.next {q q' : Position} (h : Loosened q q') :
    List.Forall₂ Loosened q.next q'.next := by
  obtain ⟨schema, schema', place, rfl, rfl, hschema⟩ := h.schemas
  cases hschema with
  | scalar _ => exact .nil
  | array _ hparts =>
    rw [next_array, next_array]
    refine List.rel_flatMap (List.forall₂_same.mpr fun e _ => rfl) ?_
    rintro ⟨v, i⟩ _ rfl
    dsimp only
    rw [Option.toList_map, Option.toList_map, List.forall₂_map_left_iff,
      List.forall₂_map_right_iff]
    exact (rel_toList (rel_nth hparts i)).imp fun t t' ht => ⟨rfl, ht⟩
  | @object _ _ fields fields' wildcard wildcard' _ hnames hfields hwildcard =>
    have hundeclared : undeclared fields' place.entries = undeclared fields place.entries := by
      rw [undeclared, undeclared, hnames]
    have hfields : List.Forall₂ (fun f f' => f.1 = f'.1 ∧ f.2.Loosens f'.2) fields fields' := by
      have hnames := map_eq_map_iff_forall₂.mp hnames
      rw [List.forall₂_iff_zip] at hnames ⊢
      exact ⟨hnames.1, fun hf => ⟨hnames.2 hf, hfields _ _ hf⟩⟩
    rw [next_object, next_object, hundeclared]
    split
    · exact .nil
    · refine List.rel_append ?_ (List.rel_flatMap (rel_toList hwildcard) fun t t' ht => ?_)
      · rw [List.forall₂_map_left_iff, List.forall₂_map_right_iff]
        refine hfields.imp ?_
        rintro ⟨name, t⟩ ⟨_, t'⟩ ⟨rfl, ht⟩
        exact ⟨rfl, ht⟩
      · rw [List.forall₂_map_left_iff, List.forall₂_map_right_iff, List.forall₂_same]
        exact fun e _ => ⟨rfl, ht⟩

/-! ### One position -/

/-- **The looser schema has the record of the stricter one, unless it waives it.** -/
theorem Loosened.record?_eq {q q' : Position} (h : Loosened q q') (registry : Registry)
    (root : Value) :
    q'.record? registry root = if Waives q q' then none else q.record? registry root := by
  obtain ⟨schema, schema', place, rfl, rfl, hschema⟩ := h.schemas
  rw [record?, record?]
  cases hp : place.present with
  | none =>
    rw [violation?_of_absent schema hp, violation?_of_absent schema' hp, hschema.demand_eq]
    have hopt := hschema.optional
    simp only [Waives, hp, true_and]
    cases ho : schema.optional with
    | true => rw [if_pos (hopt ho), if_pos rfl, if_neg fun h => Bool.noConfusion h.1]
    | false =>
      cases ho' : schema'.optional with
      | true => rw [if_pos rfl, if_pos ⟨rfl, rfl⟩, Option.map_none]
      | false => rw [if_neg Bool.false_ne_true, if_neg fun h => Bool.noConfusion h.2]
  | some v =>
    -- what is there is looked at in the same way
    have hwaives : ¬ Waives ⟨schema, place⟩ ⟨schema', place⟩ := by
      rintro ⟨hnone, -⟩
      cases hp.symm.trans hnone
    rw [if_neg hwaives, violation?_of_present schema hp, violation?_of_present schema' hp]
    cases hschema <;> rfl

/-! ### The records of two walks -/

/-- The paths at which the second of two walks waives a record of the first. -/
def waived (start start' : Position) : List Path :=
  (start.preorder.filter fun q =>
    ∃ q' ∈ start'.preorder, q'.place.path = q.place.path ∧ Waives q q').map fun q => q.place.path

theorem mem_waived {start start' : Position} {path : Path} :
    path ∈ waived start start' ↔ ∃ q q', start.Reaches q ∧ start'.Reaches q' ∧
      q.place.path = path ∧ q'.place.path = path ∧ Waives q q' := by
  simp only [waived, List.mem_map, List.mem_filter, decide_eq_true_iff, mem_preorder]
  constructor
  · rintro ⟨q, ⟨hreach, q', hreach', hpath, hwaives⟩, rfl⟩
    exact ⟨q, q', hreach, hreach', rfl, hpath, hwaives⟩
  · rintro ⟨q, q', hreach, hreach', rfl, hpath, hwaives⟩
    exact ⟨q, ⟨hreach, q', hreach', hpath, hwaives⟩, rfl⟩

/-- **The records of the looser walk** are those of the stricter one whose paths it does
not waive. -/
theorem Loosened.filterMap_record? {start start' : Position} (h : Loosened start start')
    (hstart : start.Proper) (hstart' : start'.Proper) (registry : Registry) (root : Value) :
    start'.preorder.filterMap (record? registry root) =
      (start.preorder.filterMap (record? registry root)).filter fun r =>
        r.path ∉ waived start start' := by
  have hwalks := forall₂_preorder (fun _ _ h => Loosened.next h) h
  rw [List.filter_filterMap]
  symm
  refine filterMap_eq_of_forall₂ (forall₂_and_mem hwalks) ?_
  rintro q q' ⟨hq, hq', hloosened⟩
  -- a path tells the positions of each walk apart
  have hwaived : q.place.path ∈ waived start start' ↔ Waives q q' := by
    rw [mem_waived]
    constructor
    · rintro ⟨a, a', ha, ha', hpath, hpath', hwaives⟩
      obtain rfl := Reaches.eq_of_path hstart ha (mem_preorder.mp hq) hpath
      rw [hloosened.place] at hpath'
      obtain rfl := Reaches.eq_of_path hstart' ha' (mem_preorder.mp hq') hpath'
      exact hwaives
    · intro hwaives
      refine ⟨q, q', mem_preorder.mp hq, mem_preorder.mp hq', rfl, ?_, hwaives⟩
      rw [hloosened.place]
  rw [hloosened.record?_eq, record?]
  cases q.violation? registry root with
  | none =>
    rw [Option.map_none, Option.filter_none, ite_self]
  | some violation =>
    simp only [Option.map_some, Option.filter_some, hwaived, decide_not, Bool.not_eq_true',
      decide_eq_false_iff_not, ite_not]

end Position

/-! ### Whole values -/

/-- **Further optional marks remove records**, and only those of the positions that they
waive.  If one schema is another one but for nodes that only it marks as optional, its
records of a document are those of the other one, in the same order, without those at the
paths where nothing is, or `null`, and the node is optional in the first schema only.  So
whatever the stricter schema accepts, the looser one does. -/
theorem validate_loosened {s s' : FlatSchema} {schema schema' : Arena}
    (hs : compile s = .ok schema) (hs' : compile s' = .ok schema')
    (hloosens : schema.tree.Loosens schema'.tree) {registry : Registry}
    (hknown : registry.ensureKnown schema.types = .ok ())
    (hknown' : registry.ensureKnown schema'.types = .ok ()) {v : Value} (hv : v.Proper)
    (pathRoot : String) :
    let start := Position.start schema.tree v pathRoot
    let start' := Position.start schema'.tree v pathRoot
    (∀ path, path ∈ Position.waived start start' ↔ ∃ q q', start.Reaches q ∧ start'.Reaches q' ∧
      q.place.path = path ∧ q'.place.path = path ∧
      q.place.present = none ∧ q.schema.optional = false ∧ q'.schema.optional = true) ∧
    (∃ records, (validate v schema registry pathRoot).answer = .ok records ∧
      (validate v schema' registry pathRoot).answer =
        .ok (records.filter fun r => r.path ∉ Position.waived start start')) ∧
    ((validate v schema registry pathRoot).answer = .ok [] →
      (validate v schema' registry pathRoot).answer = .ok []) := by
  intro start start'
  have hloosened : start.Loosened start' := ⟨rfl, hloosens⟩
  have hrecords := hloosened.filterMap_record? (Position.proper_start hs hv pathRoot)
    (Position.proper_start hs' hv pathRoot) registry v
  have hanswer := Position.answer_validate_eq hknown v pathRoot
  have hanswer' := Position.answer_validate_eq hknown' v pathRoot
  refine ⟨fun path => Position.mem_waived, ⟨_, hanswer, ?_⟩, fun h => ?_⟩
  · rw [hanswer']
    exact congrArg Except.ok hrecords
  · have hnil := Except.ok.inj (hanswer.symm.trans h)
    rw [hanswer']
    exact congrArg Except.ok (by rw [hrecords, hnil, List.filter_nil])

/-- The schema `{a:[i],b:[i],*:s}`, flat and compiled. -/
def sternFlat : FlatSchema := ⟨['1'], ["[i]".toList, "{a:0,b:0,*:s}".toList], []⟩

@[inherit_doc sternFlat] def sternSchema : Arena where
  nodes := [.scalar false "i" none, .array false [0], .scalar false "s" none,
    .object false [("a", 1), ("b", 1)] (some 2)]
  root := 3

/-- The schema `?{a:[?i],b:?[?i],*:?s}`, flat and compiled.  What was one node is two. -/
def lenientFlat : FlatSchema := ⟨['?', '1'], ["[?i]".toList, "{a:0,b:?0,*:?s}".toList], []⟩

@[inherit_doc lenientFlat] def lenientSchema : Arena where
  nodes := [.scalar true "i" none, .array false [0], .scalar true "i" none, .array true [2],
    .scalar true "s" none, .object true [("a", 1), ("b", 3)] (some 4)]
  root := 5

/-- A document that has too little at an item, at a field and at another key. -/
def sparseValue : Value := .obj [("y", .null), ("a", .arr [.null, .int 1]), ("z", .int 5)]

theorem loosens_lenientSchema : sternSchema.tree.Loosens lenientSchema.tree := by
  have hstern : sternSchema.tree = .object false [("a", .array false [.scalar false "i" none]),
      ("b", .array false [.scalar false "i" none])] (some (.scalar false "s" none)) := rfl
  have hlenient : lenientSchema.tree = .object true [("a", .array false [.scalar true "i" none]),
      ("b", .array true [.scalar true "i" none])] (some (.scalar true "s" none)) := rfl
  have hitem : (Tree.scalar false "i" none).Loosens (.scalar true "i" none) := .scalar (by decide)
  have harray (optional : Bool) : (Tree.array false [.scalar false "i" none]).Loosens
      (.array optional [.scalar true "i" none]) := .array (by simp) (.cons hitem .nil)
  have hother : (Tree.scalar false "s" none).Loosens (.scalar true "s" none) := .scalar (by decide)
  rw [hstern, hlenient]
  refine .object (by simp) rfl (fun f f' hf => ?_) (.some hother)
  simp only [List.zip_cons_cons, List.zip_nil_left, List.mem_cons, Prod.mk.injEq,
    List.not_mem_nil, or_false] at hf
  obtain ⟨rfl, rfl⟩ | ⟨rfl, rfl⟩ := hf
  · exact harray false
  · exact harray true

theorem validate_loosened_sparseValue : ∃ records,
    (validate sparseValue sternSchema .builtin "doc").answer = .ok records ∧
      (validate sparseValue lenientSchema .builtin "doc").answer =
        .ok (records.filter fun r => r.path ∉
          [⟨"doc", [.field "a", .item 0]⟩, ⟨"doc", [.field "b"]⟩, ⟨"doc", [.field "y"]⟩]) := by
  have hstern : compile sternFlat = .ok sternSchema :=
    compile_of_groups [.array [⟨false, .scalar "i" none⟩],
      .object [("a", ⟨false, .reference 0⟩), ("b", ⟨false, .reference 0⟩),
        ("*", ⟨false, .scalar "s" none⟩)]] ⟨false, .reference 1⟩
      (by decide) (by decide) (by decide)
  have hlenient : compile lenientFlat = .ok lenientSchema :=
    compile_of_groups [.array [⟨true, .scalar "i" none⟩],
      .object [("a", ⟨false, .reference 0⟩), ("b", ⟨true, .reference 0⟩),
        ("*", ⟨true, .scalar "s" none⟩)]] ⟨true, .reference 1⟩
      (by decide) (by decide) (by decide)
  have hproper : sparseValue.Proper := by
    refine .obj (by decide) ?_
    simp only [List.forall_mem_cons]
    refine ⟨.null, .arr ?_, .num _, List.forall_mem_nil _⟩
    simp only [List.forall_mem_cons]
    exact ⟨.null, .num _, List.forall_mem_nil _⟩
  have hknown : Registry.builtin.ensureKnown sternSchema.types = .ok () := by decide
  have hknown' : Registry.builtin.ensureKnown lenientSchema.types = .ok () := by decide
  obtain ⟨-, hrecords, -⟩ :=
    validate_loosened hstern hlenient loosens_lenientSchema hknown hknown' hproper "doc"
  have hwaived : (Position.start sternSchema.tree sparseValue "doc").waived
      (Position.start lenientSchema.tree sparseValue "doc") =
        [⟨"doc", [.field "a", .item 0]⟩, ⟨"doc", [.field "b"]⟩, ⟨"doc", [.field "y"]⟩] := by
    decide +kernel
  rw [hwaived] at hrecords
  exact hrecords

end TerseSchema
