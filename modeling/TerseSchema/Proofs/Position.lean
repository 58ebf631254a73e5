import Mathlib.Logic.Relation
import TerseSchema.Proofs.Compiled
import TerseSchema.Proofs.Values
import TerseSchema.Validation

/-!
# The positions that validation reaches

Validation walks a schema and a value together.  A position is where the walk
stands: a schema and the place that it meets there.  What is found from a position
on is found at the position itself or at one of those it leads to, so that the
findings of a whole walk are those of the positions it reaches, each by itself.

## Main definitions

* `Position`, `Position.next` — positions, and those that one leads to.
* `Position.findings` — what is found at a position itself.
* `Position.Next`, `Position.Reaches` — one step of a walk, and all its positions.

## Main results

* `validated_eq`, `mem_validated` — **the findings of a walk, position by position.**
* `Reaches.eq_of_path` — **a path tells all positions of a walk apart.**
-/

namespace TerseSchema

/-! ### Places, parts and keys -/

theorem Place.value_of_present {place : Place} {v : Value} (h : place.present = some v) :
    place.value = some v :=
  (Option.filter_eq_some_iff.mp h).1

theorem Place.ne_null_of_present {place : Place} {v : Value} (h : place.present = some v) :
    v ≠ .null := by
  rintro rfl
  cases (Option.filter_eq_some_iff.mp h).2

theorem Place.present_of_value {place : Place} {v : Value} (h : place.value = some v)
    (hv : v ≠ .null) : place.present = some v := by
  rw [Place.present, h]
  cases v <;> first | rfl | exact absurd rfl hv

theorem Place.present_of_null {place : Place} (h : place.value = some .null) :
    place.present = none := by
  rw [Place.present, h]
  rfl

theorem Place.eq_null_of_absent {place : Place} {v : Value} (h : place.value = some v)
    (hp : place.present = none) : v = .null := by
  rw [Place.present, h] at hp
  cases v <;> first | rfl | cases hp

theorem Path.extend_inj {p p' : Path} {step step' : Step} (h : p.extend step = p'.extend step') :
    p = p' ∧ step = step' := by
  obtain ⟨root, steps⟩ := p
  obtain ⟨hroot, hsteps⟩ := Path.mk.inj h
  obtain ⟨rfl, hstep⟩ := List.append_inj' hsteps rfl
  obtain rfl : root = p'.root := hroot
  exact ⟨rfl, List.singleton_inj.mp hstep⟩

theorem nth_map {α β : Type} (f : α → β) (parts : List α) (i : Nat) :
    nth (parts.map f) i = (nth parts i).map f := by
  rw [nth, nth, List.length_map, List.getElem?_map]

/-- Changing what the names stand for leaves the undeclared keys alone. -/
theorem undeclared_map {α β : Type} (f : α → β) (fields : List (String × α))
    (entries : List (String × Value)) :
    undeclared (fields.map fun (name, a) => (name, f a)) entries = undeclared fields entries := by
  rw [undeclared, undeclared, Table.names, Table.names, List.map_map]
  rfl

theorem mem_undeclared {α : Type} {fields : List (String × α)} {entries : List (String × Value)}
    {e : String × Value} :
    e ∈ undeclared fields entries ↔ e ∈ entries ∧ e.1 ∉ Table.names fields := by
  rw [undeclared, List.mem_filter, decide_eq_true_iff]

theorem undeclared_append {α : Type} (fields : List (String × α))
    (as bs : List (String × Value)) :
    undeclared fields (as ++ bs) = undeclared fields as ++ undeclared fields bs :=
  List.filter_append as bs

/-- Of the fields that are declared, none is undeclared. -/
theorem undeclared_eq_nil {α : Type} {fields : List (String × α)} {entries : List (String × Value)}
    (h : ∀ key ∈ Table.names entries, key ∈ Table.names fields) :
    undeclared fields entries = [] := by
  refine List.filter_eq_nil_iff.mpr fun e he => ?_
  simpa using h e.1 (List.mem_map_of_mem he)

/-- Of the fields that are not, all are. -/
theorem undeclared_eq_self {α : Type} {fields : List (String × α)}
    {entries : List (String × Value)} (h : ∀ e ∈ entries, e.1 ∉ Table.names fields) :
    undeclared fields entries = entries :=
  List.filter_eq_self.mpr fun e he => decide_eq_true (h e he)

theorem mem_names_undeclared {α : Type} {fields : List (String × α)}
    {entries : List (String × Value)} {key : String} :
    key ∈ Table.names (undeclared fields entries) ↔
      key ∈ Table.names entries ∧ key ∉ Table.names fields := by
  constructor
  · intro h
    obtain ⟨e, he, rfl⟩ := List.mem_map.mp h
    exact ⟨List.mem_map_of_mem (mem_undeclared.mp he).1, (mem_undeclared.mp he).2⟩
  · rintro ⟨h, hkey⟩
    obtain ⟨e, he, rfl⟩ := List.mem_map.mp h
    exact List.mem_map_of_mem (mem_undeclared.mpr ⟨he, hkey⟩)

/-! ### Positions -/

/-- Where a walk stands: a schema, and what it meets. -/
structure Position where
  /-- The schema. -/
  schema : Tree
  /-- What it meets. -/
  place : Place

namespace Position

/-- Where the walk over a whole value starts. -/
def start (schema : Tree) (value : Value) (pathRoot : String) : Position :=
  ⟨schema, ⟨some value, ⟨pathRoot, []⟩, none⟩⟩

/-- The positions that one leads to, in the order of the walk: the items of an
array under its parts in turn, the declared fields of an object and then, under a
wildcard, its other keys. -/
def next (q : Position) : List Position :=
  match q.schema, q.place.present with
  | .array _ parts, some (.arr items) =>
    items.zipIdx.flatMap fun (v, i) =>
      ((nth parts i).map fun t => ⟨t, q.place.item i (some v)⟩).toList
  | .object _ fields wildcard, some (.obj entries) =>
    (fields.map fun (name, t) => ⟨t, q.place.field name (entries.lookup name)⟩) ++
      wildcard.toList.flatMap fun t =>
        (undeclared fields entries).map fun (key, v) => ⟨t, q.place.field key (some v)⟩
  | _, _ => []

/-- What is found at a position itself. -/
def findings (registry : Registry) (root : Value) (q : Position) : List Finding :=
  match q.schema, q.place.present with
  | .scalar optional _ _, none => missing optional q.place .required
  | .scalar _ type _, some v => checked registry type v ⟨q.place.path, root, q.place.parent⟩
  | .array optional _, none => missing optional q.place .shouldBeArray
  | .array _ _, some v =>
    if v.items?.isSome then [] else [.violated ⟨q.place.path, .shouldBeArray⟩]
  | .object optional _ _, none => missing optional q.place .shouldBeObject
  | .object _ _ _, some v =>
    if v.fields?.isSome then [] else [.violated ⟨q.place.path, .shouldBeObject⟩]

/-- What is found from a position on. -/
def validated (registry : Registry) (root : Value) (q : Position) : List Finding :=
  (validation registry root).run q.schema q.place

/-! ### One step -/

/-- The three ways from one position to another. -/
inductive Next : Position → Position → Prop
  | item {optional : Bool} {parts : List Tree} {place : Place} {items : List Value} {i : Nat}
      {v : Value} {t : Tree} : place.present = some (.arr items) → items[i]? = some v →
      nth parts i = some t → Next ⟨.array optional parts, place⟩ ⟨t, place.item i (some v)⟩
  | field {optional : Bool} {fields : List (String × Tree)} {wildcard : Option Tree}
      {place : Place} {entries : List (String × Value)} {name : String} {t : Tree} :
      place.present = some (.obj entries) → (name, t) ∈ fields →
      Next ⟨.object optional fields wildcard, place⟩
        ⟨t, place.field name (entries.lookup name)⟩
  | other {optional : Bool} {fields : List (String × Tree)} {t : Tree} {place : Place}
      {entries : List (String × Value)} {key : String} {v : Value} :
      place.present = some (.obj entries) → (key, v) ∈ undeclared fields entries →
      Next ⟨.object optional fields (some t), place⟩ ⟨t, place.field key (some v)⟩

theorem mem_next {q q' : Position} : q' ∈ q.next ↔ Next q q' := by
  constructor
  · intro h
    obtain ⟨schema, place⟩ := q
    unfold next at h
    split at h
    · next items hs hp =>
      obtain rfl : schema = _ := hs
      obtain ⟨⟨v, i⟩, hv, h⟩ := List.mem_flatMap.mp h
      obtain ⟨t, ht, rfl⟩ := Option.map_eq_some_iff.mp (Option.mem_toList.mp h)
      exact .item hp (List.mem_zipIdx_iff_getElem?.mp hv) ht
    · next fields wildcard entries hs hp =>
      obtain rfl : schema = _ := hs
      rcases List.mem_append.mp h with h | h
      · obtain ⟨⟨name, t⟩, hf, rfl⟩ := List.mem_map.mp h
        exact .field hp hf
      · obtain ⟨t, ht, h⟩ := List.mem_flatMap.mp h
        obtain ⟨⟨key, v⟩, hv, rfl⟩ := List.mem_map.mp h
        obtain rfl : wildcard = some t := Option.mem_toList.mp ht
        exact .other hp hv
    · cases h
  · intro h
    cases h with
    | @item _ _ _ _ i v _ hp hv ht =>
      simp only [next, hp]
      refine List.mem_flatMap.mpr ⟨(v, i), List.mem_zipIdx_iff_getElem?.mpr hv, ?_⟩
      rw [ht]
      exact List.mem_singleton_self _
    | @field _ _ _ _ _ name t hp hf =>
      simp only [next, hp]
      exact List.mem_append_left _ (List.mem_map.mpr ⟨(name, t), hf, rfl⟩)
    | @other _ _ t _ _ key v hp hv =>
      simp only [next, hp]
      refine List.mem_append_right _ (List.mem_flatMap.mpr ⟨t, List.mem_singleton_self t, ?_⟩)
      exact List.mem_map.mpr ⟨(key, v), hv, rfl⟩

/-- Every step goes to a part of the schema, so that what holds of a position if it
holds of those it leads to holds of all positions. -/
theorem induct {motive : Position → Prop}
    (h : ∀ q, (∀ q', Next q q' → motive q') → motive q) (q : Position) : motive q := by
  obtain ⟨schema, place⟩ := q
  induction schema using Tree.induct generalizing place with
  | scalar optional type declared => exact h _ fun q' hq => by cases hq
  | array optional parts ih =>
    refine h _ fun q' hq => ?_
    cases hq with
    | item _ _ ht => exact ih _ (List.mem_of_getElem? ht) _
  | object optional fields wildcard ih ih' =>
    refine h _ fun q' hq => ?_
    cases hq with
    | field _ hf => exact ih _ hf _
    | other _ _ => exact ih' _ rfl _

/-! ### The findings of a walk -/

/-- **What is found from a position on**: what is found there, and then what is
found from the positions that it leads to. -/
theorem validated_eq (registry : Registry) (root : Value) (q : Position) :
    q.validated registry root =
      q.findings registry root ++ q.next.flatMap (validated registry root) := by
  obtain ⟨schema, place⟩ := q
  cases schema with
  | scalar optional type declared =>
    have hnext : next ⟨.scalar optional type declared, place⟩ = [] := rfl
    rw [hnext, List.flatMap_nil, List.append_nil, validated, Walk.run_scalar]
    cases hp : place.present <;> simp only [validation, findings, hp]
  | array optional parts =>
    rw [validated, Walk.run_array]
    cases hp : place.present with
    | none => simp [validation, findings, next, hp]
    | some v =>
      cases v with
      | arr items =>
        -- an array is itself no violation; its items meet the parts in turn
        simp only [validation, findings, next, hp, List.flatMap_assoc, nth_map]
        show _ = [] ++ _
        rw [List.nil_append]
        congr 1
        funext ⟨v, i⟩
        cases nth parts i with
        | none => rfl
        | some t => exact (List.append_nil _).symm
      | _ => simp [validation, findings, next, hp, Value.items?]
  | object optional fields wildcard =>
    rw [validated, Walk.run_object]
    cases hp : place.present with
    | none => simp [validation, findings, next, hp]
    | some v =>
      cases v with
      | obj entries =>
        -- the declared fields first, then what the wildcard covers
        simp only [validation, findings, next, hp, undeclared_map, List.flatMap_append,
          List.flatMap_map]
        show _ = [] ++ _
        rw [List.nil_append]
        congr 1
        cases wildcard with
        | none => rfl
        | some t =>
          rw [Option.toList_some, List.flatMap_singleton, List.flatMap_map]
          rfl
      | _ => simp [validation, findings, next, hp, Value.fields?]

/-- The positions that a walk from one position reaches. -/
def Reaches : Position → Position → Prop := Relation.ReflTransGen Next

/-- **What is found from a position on is found at one that it reaches.** -/
theorem mem_validated {registry : Registry} {root : Value} {q : Position} {f : Finding} :
    f ∈ q.validated registry root ↔ ∃ q', Reaches q q' ∧ f ∈ q'.findings registry root := by
  constructor
  · induction q using Position.induct with
    | h q ih =>
      intro hf
      rw [validated_eq] at hf
      rcases List.mem_append.mp hf with hf | hf
      · exact ⟨q, .refl, hf⟩
      · obtain ⟨q', hq', hf⟩ := List.mem_flatMap.mp hf
        obtain ⟨q'', hreach, hf⟩ := ih q' (mem_next.mp hq') hf
        exact ⟨q'', .head (mem_next.mp hq') hreach, hf⟩
  · rintro ⟨q', hreach, hf⟩
    induction hreach using Relation.ReflTransGen.head_induction_on with
    | refl =>
      rw [validated_eq]
      exact List.mem_append_left _ hf
    | head hstep _ ih =>
      rw [validated_eq]
      exact List.mem_append_right _ (List.mem_flatMap.mpr ⟨_, mem_next.mpr hstep, ih⟩)

/-! ### What a step keeps -/

/-- A position of a walk over a compiled schema and a document. -/
structure Proper (q : Position) : Prop where
  schema : q.schema.Proper
  value : ∀ v ∈ q.place.value, v.Proper

/-- A walk over a compiled schema and a document starts so. -/
theorem proper_start {s : FlatSchema} {schema : Arena} (hs : compile s = .ok schema) {v : Value}
    (hv : v.Proper) (pathRoot : String) : (start schema.tree v pathRoot).Proper := by
  refine ⟨proper_of_compile hs, ?_⟩
  rintro _ ⟨⟩
  exact hv

theorem schema_proper_next {q q' : Position} (hq : q.schema.Proper) (h : Next q q') :
    q'.schema.Proper := by
  cases h with
  | item _ _ ht =>
    cases hq with
    | array _ hparts => exact hparts _ (List.mem_of_getElem? ht)
  | field _ hf =>
    cases hq with
    | object _ hfields _ => exact hfields _ hf
  | other _ _ =>
    cases hq with
    | object _ _ hwildcard => exact hwildcard _ rfl

theorem Proper.next {q q' : Position} (hq : q.Proper) (h : Next q q') : q'.Proper := by
  refine ⟨schema_proper_next hq.schema h, ?_⟩
  cases h with
  | item hp hv _ =>
    have harr := hq.value _ (Place.value_of_present hp)
    rintro v ⟨⟩
    exact harr.item _ (List.mem_of_getElem? hv)
  | field hp _ =>
    have hobj := hq.value _ (Place.value_of_present hp)
    exact fun v hv => hobj.field _ (Table.mem_of_lookup_eq_some hv)
  | other hp hv =>
    have hobj := hq.value _ (Place.value_of_present hp)
    rintro v ⟨⟩
    exact hobj.field _ (mem_undeclared.mp hv).1

theorem Proper.reaches {q q' : Position} (hq : q.Proper) (h : Reaches q q') : q'.Proper := by
  induction h with
  | refl => exact hq
  | tail _ hstep ih => exact ih.next hstep

theorem allScalars_next {p : Bool → String → Option Default → Prop} {q q' : Position}
    (hq : q.schema.AllScalars p) (h : Next q q') : q'.schema.AllScalars p := by
  cases h with
  | item _ _ ht =>
    cases hq with
    | array hparts => exact hparts _ (List.mem_of_getElem? ht)
  | field _ hf =>
    cases hq with
    | object hfields _ => exact hfields _ hf
  | other _ _ =>
    cases hq with
    | object _ hwildcard => exact hwildcard _ rfl

theorem allScalars_reaches {p : Bool → String → Option Default → Prop} {q q' : Position}
    (hq : q.schema.AllScalars p) (h : Reaches q q') : q'.schema.AllScalars p := by
  induction h with
  | refl => exact hq
  | tail _ hstep ih => exact allScalars_next ih hstep

/-! ### Paths -/

/-- A step makes the path one step longer. -/
theorem Next.path {q q' : Position} (h : Next q q') :
    ∃ step, q'.place.path = q.place.path.extend step := by
  cases h with
  | @item _ _ _ _ i _ _ _ _ _ => exact ⟨.item i, rfl⟩
  | @field _ _ _ _ _ name _ _ _ => exact ⟨.field name, rfl⟩
  | @other _ _ _ _ _ key _ _ _ => exact ⟨.field key, rfl⟩

theorem Next.length_path {q q' : Position} (h : Next q q') :
    q'.place.path.steps.length = q.place.path.steps.length + 1 := by
  obtain ⟨step, hstep⟩ := h.path
  rw [hstep, Path.extend, List.length_append, List.length_singleton]

theorem Reaches.length_path {q q' : Position} (h : Reaches q q') :
    q.place.path.steps.length ≤ q'.place.path.steps.length := by
  induction h with
  | refl => exact Nat.le_refl _
  | tail _ hstep ih => exact Nat.le_trans ih (by rw [hstep.length_path]; omega)

/-- A path tells the positions apart that one position leads to. -/
theorem Next.eq_of_path {q a b : Position} (hq : q.Proper) (ha : Next q a) (hb : Next q b)
    (h : a.place.path = b.place.path) : a = b := by
  obtain ⟨hschema, hvalue⟩ := hq
  cases ha with
  | item hp hv ht =>
    cases hb with
    | item hp' hv' ht' =>
      obtain ⟨-, hstep⟩ := Path.extend_inj h
      obtain rfl := Step.item.inj hstep
      obtain rfl := Value.arr.inj (Option.some.inj (hp.symm.trans hp'))
      obtain rfl := Option.some.inj (hv.symm.trans hv')
      obtain rfl := Option.some.inj (ht.symm.trans ht')
      rfl
  | field hp hf =>
    cases hb with
    | field hp' hf' =>
      obtain ⟨-, hstep⟩ := Path.extend_inj h
      obtain rfl := Step.field.inj hstep
      obtain rfl := Value.obj.inj (Option.some.inj (hp.symm.trans hp'))
      cases hschema with
      | object hn _ _ =>
        obtain rfl := Table.entry_unique hn hf hf'
        rfl
    | other hp' hv' =>
      -- a declared name is no other key
      obtain ⟨-, hstep⟩ := Path.extend_inj h
      obtain rfl := Step.field.inj hstep
      exact absurd (List.mem_map_of_mem hf) (mem_undeclared.mp hv').2
  | other hp hv =>
    cases hb with
    | field hp' hf' =>
      obtain ⟨-, hstep⟩ := Path.extend_inj h
      obtain rfl := Step.field.inj hstep
      exact absurd (List.mem_map_of_mem hf') (mem_undeclared.mp hv).2
    | other hp' hv' =>
      obtain ⟨-, hstep⟩ := Path.extend_inj h
      obtain rfl := Step.field.inj hstep
      obtain rfl := Value.obj.inj (Option.some.inj (hp.symm.trans hp'))
      -- here the document has to tell its keys apart
      have hn := (hvalue _ (Place.value_of_present hp)).nodup
      obtain rfl := Table.entry_unique hn (mem_undeclared.mp hv).1 (mem_undeclared.mp hv').1
      rfl

/-- **A path tells all positions of a walk apart.** -/
theorem Reaches.eq_of_path {q a b : Position} (hq : q.Proper) (ha : Reaches q a)
    (hb : Reaches q b) (h : a.place.path = b.place.path) : a = b := by
  induction ha generalizing b with
  | refl =>
    cases hb with
    | refl => rfl
    | tail hb' hstep =>
      -- a walk does not come back to a path as short as where it started
      have hlength := Reaches.length_path hb'
      rw [h, hstep.length_path] at hlength
      omega
  | tail ha' hstep ih =>
    cases hb with
    | refl =>
      have hlength := Reaches.length_path ha'
      rw [← h, hstep.length_path] at hlength
      omega
    | tail hb' hstep' =>
      obtain ⟨s, hs⟩ := hstep.path
      obtain ⟨s', hs'⟩ := hstep'.path
      obtain ⟨hpath, -⟩ := Path.extend_inj (hs.symm.trans (h.trans hs'))
      obtain rfl := ih hb' hpath
      exact hstep.eq_of_path (hq.reaches ha') hstep' h

end Position

end TerseSchema
