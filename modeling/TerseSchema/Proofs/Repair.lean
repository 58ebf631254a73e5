import TerseSchema.Proofs.Records
import TerseSchema.Proofs.Shaped

/-!
# Shaping repairs what validation reports

Validation and shaping decide at every position alike, although one collects
records and the other builds a value: a scalar that is there is kept exactly if it
has no record, and the containers that are reached are only filled up.  A value
without records that lacks nothing is therefore built again as it is.

## Main definitions

* `Position.Repaired` — what stands in the shaped value at a reached position.
* `Position.IsFull` — nothing is lacking at a position, and nothing is left over.

## Main results

* `shape_repairs_records` — **shaping repairs exactly what validation reports.**
-/

namespace TerseSchema

namespace Position

/-- What stands in the shaped value where validation reaches a value: a scalar is
kept without a record and replaced with one, an array keeps its places and is
filled up to the length of the pattern, an object has its declared fields and those
of its other keys that the schema speaks of. -/
def Repaired (registry : Registry) (draws : Path → Nat) (records : List Record) (q : Position)
    (w : Value) : Prop :=
  match q.schema, q.place.present with
  | .scalar _ type declared, some v =>
    ((∀ r ∈ records, r.path ≠ q.place.path) → w = v) ∧
      ((∃ r ∈ records, r.path = q.place.path) → ∃ known, registry.get? type = some known ∧
        w = fallback known declared (draws q.place.path))
  | .array _ parts, some (.arr items) =>
    ∃ built, w = .arr built ∧ built.length = max items.length parts.length
  | .object _ fields wildcard, some (.obj entries) =>
    ∃ built, w = .obj built ∧
      if fields.isEmpty && wildcard.isNone then built = entries
      else Table.names built = Table.names fields ++
        if wildcard.isSome then Table.names (undeclared fields entries) else []
  | _, _ => True

/-- Nothing is lacking and nothing is left over: an array is as long as its
pattern, and an object has all declared fields and, unless the schema covers every
key, no others. -/
def IsFull (q : Position) : Prop :=
  match q.schema, q.place.present with
  | .array _ parts, some (.arr items) => parts.length ≤ items.length
  | .object _ fields wildcard, some (.obj entries) =>
    (∀ name ∈ Table.names fields, name ∈ Table.names entries) ∧
      (wildcard = none → fields ≠ [] → ∀ key ∈ Table.names entries, key ∈ Table.names fields)
  | _, _ => True

end Position

/-! ### Position by position -/

/-- A scalar that is there is kept if its type accepts it, and replaced if not. -/
theorem Shaper.shaped_scalar_cases (sh : Shaper) (hempty : sh.registry.get? "" = none)
    {type : String} (hmeans : sh.registry.Means type) (optional : Bool)
    (declared : Option Default) {place : Place} {v : Value} (hp : place.present = some v) :
    (sh.registry.check type v ⟨place.path, sh.root, place.parent⟩ = .ok true ∧
        sh.shaped ⟨.scalar optional type declared, place⟩ = v) ∨
      sh.registry.check type v ⟨place.path, sh.root, place.parent⟩ = .ok false ∧
        ∃ known, sh.registry.get? type = some known ∧
          sh.shaped ⟨.scalar optional type declared, place⟩ =
            fallback known declared (sh.draws place.path) := by
  have hl : leavesOut sh.includeOptional optional place = false := leavesOut_of_present hp
  rw [sh.shaped_scalar hl, Registry.check]
  by_cases htype : type = ""
  · subst htype
    rw [if_pos rfl, hempty, hp]
    exact .inl ⟨rfl, rfl⟩
  · obtain ⟨known, hknown⟩ := hmeans.resolve_left htype
    rw [if_neg htype, hknown, hp]
    cases hc : known.check v ⟨place.path, sh.root, place.parent⟩ with
    | true => exact .inl ⟨by simp only [hc], by simp only [shapeKnown, hc, if_true]⟩
    | false =>
      refine .inr ⟨by simp only [hc], known, rfl, ?_⟩
      simp only [shapeKnown, hc, Bool.false_eq_true, if_false]

/-- A scalar that is there is replaced exactly if it has a record. -/
theorem Shaper.repaired_scalar (sh : Shaper) (hempty : sh.registry.get? "" = none)
    {type : String} (hmeans : sh.registry.Means type) (optional : Bool)
    (declared : Option Default) {place : Place} {v : Value} (hp : place.present = some v)
    {records : List Record} (hrecords : (∃ r ∈ records, r.path = place.path) ↔
      ∃ r, .violated r ∈ Position.findings sh.registry sh.root
        ⟨.scalar optional type declared, place⟩) :
    Position.Repaired sh.registry sh.draws records ⟨.scalar optional type declared, place⟩
      (sh.shaped ⟨.scalar optional type declared, place⟩) := by
  have hfound : (∃ r ∈ records, r.path = place.path) ↔
      sh.registry.check type v ⟨place.path, sh.root, place.parent⟩ = .ok false := by
    rw [hrecords, ← violated_checked_iff hmeans]
    simp only [Position.findings, hp]
  simp only [Position.Repaired, hp]
  obtain ⟨hcheck, hshaped⟩ | ⟨hcheck, hshaped⟩ :=
    sh.shaped_scalar_cases hempty hmeans optional declared hp
  · refine ⟨fun _ => hshaped, fun hr => ?_⟩
    rw [hfound, hcheck] at hr
    cases hr
  · refine ⟨fun hr => ?_, fun _ => hshaped⟩
    obtain ⟨r, hmem, hpath⟩ := hfound.mpr hcheck
    exact absurd hpath (hr r hmem)

/-- An object that is there keeps its fields if the schema says nothing of its keys, and has
those that the schema speaks of if it does. -/
theorem Shaper.repaired_object (sh : Shaper) {optional : Bool} {fields : List (String × Tree)}
    {wildcard : Option Tree} {place : Place} {entries : List (String × Value)}
    (hn : (Table.names fields).Nodup) (he : (Table.names entries).Nodup)
    (hp : place.present = some (.obj entries)) :
    ∃ built, sh.shaped ⟨.object optional fields wildcard, place⟩ = .obj built ∧
      if fields.isEmpty && wildcard.isNone then built = entries
      else Table.names built = Table.names fields ++
        if wildcard.isSome then Table.names (undeclared fields entries) else [] := by
  have hl : leavesOut sh.includeOptional optional place = false := leavesOut_of_present hp
  obtain rfl : place.entries = entries := place.entries_of_present hp
  by_cases hany : fields = [] ∧ wildcard = none
  · obtain ⟨rfl, rfl⟩ := hany
    exact ⟨place.entries, sh.shaped_object_any hl, rfl⟩
  · have hopen : (fields.isEmpty && wildcard.isNone) = false := by
      simpa [Option.isSome_iff_ne_none] using not_and.mp hany
    refine ⟨_, sh.shaped_object_of_nodup hl hany hn he, ?_⟩
    rw [hopen, sh.names_shapedEntries]
    rfl

/-- What shaping builds at a position is what the records of that position call
for. -/
theorem Shaper.repaired_shaped (sh : Shaper) (hempty : sh.registry.get? "" = none) {q : Position}
    (hq : q.Proper) (hmeans : q.schema.AllScalars fun _ type _ => sh.registry.Means type)
    {records : List Record} (hrecords : (∃ r ∈ records, r.path = q.place.path) ↔
      ∃ r, .violated r ∈ q.findings sh.registry sh.root) :
    q.Repaired sh.registry sh.draws records (sh.shaped q) := by
  obtain ⟨schema, place⟩ := q
  obtain ⟨hschema, hvalue⟩ := hq
  cases hp : place.present with
  | none => cases schema <;> simp only [Position.Repaired, hp]
  | some v =>
    cases hschema with
    | scalar optional type declared =>
      cases hmeans with
      | scalar hmeans => exact sh.repaired_scalar hempty hmeans optional declared hp hrecords
    | @array optional parts hparts _ =>
      cases v with
      | arr items =>
        obtain ⟨built, hbuilt, hlength, -⟩ := sh.shaped_array (leavesOut_of_present hp) hparts
        rw [place.items_of_present hp] at hlength
        simp only [Position.Repaired, hp]
        exact ⟨built, hbuilt, hlength⟩
      | _ => simp only [Position.Repaired, hp]
    | object hn _ _ =>
      cases v with
      | obj entries =>
        have he := (hvalue _ (Place.value_of_present hp)).nodup
        simp only [Position.Repaired, hp]
        exact sh.repaired_object hn he hp
      | _ => simp only [Position.Repaired, hp]

/-! ### Values that lack nothing -/

/-- Fields that are written out of a full object are as many as its own. -/
theorem length_shapedEntries {sh : Shaper} {fields : List (String × Tree)}
    {wildcard : Option Tree} {place : Place} (hsome : ¬ (fields = [] ∧ wildcard = none))
    (hn : (Table.names fields).Nodup) (he : (Table.names place.entries).Nodup)
    (hfields : ∀ name ∈ Table.names fields, name ∈ Table.names place.entries)
    (hothers : wildcard = none → fields ≠ [] →
      ∀ key ∈ Table.names place.entries, key ∈ Table.names fields) :
    (sh.shapedEntries fields wildcard place).length = place.entries.length := by
  have hperm : (Table.names (sh.shapedEntries fields wildcard place)).Perm
      (Table.names place.entries) := by
    refine (List.perm_ext_iff_of_nodup (sh.nodup_shapedEntries hn he) he).mpr fun name => ?_
    rw [sh.names_shapedEntries, List.mem_append]
    cases wildcard with
    | some t =>
      -- what is not declared is covered, so that both sides have every key
      rw [Option.isSome_some, if_pos rfl, mem_names_undeclared]
      by_cases hname : name ∈ Table.names fields
      · exact iff_of_true (.inl hname) (hfields name hname)
      · exact ⟨fun h => (h.resolve_left hname).1, fun h => .inr ⟨h, hname⟩⟩
    | none =>
      have hne : fields ≠ [] := fun h => hsome ⟨h, rfl⟩
      rw [Option.isSome_none, if_neg Bool.false_ne_true, or_iff_left (List.not_mem_nil)]
      exact ⟨hfields name, hothers rfl hne name⟩
  simpa [Table.names] using hperm.length_eq

/-- Where nothing is and nothing has to be, the schema is optional. -/
theorem optional_of_clean {registry : Registry} {root : Value} {schema : Tree} {place : Place}
    (hp : place.present = none)
    (h : ∀ r, .violated r ∉ Position.findings registry root ⟨schema, place⟩) :
    schema.optional = true := by
  obtain ⟨violation, hf⟩ := Position.exists_missing registry root schema hp
  rw [hf, missing] at h
  split at h
  · assumption
  · exact absurd (List.mem_singleton_self _) (h ⟨place.path, violation⟩)

section
variable {sh : Shaper} {optional : Bool} {place : Place}

theorem same_shaped_scalar {type : String} {declared : Option Default} {v : Value}
    (hempty : sh.registry.get? "" = none) (hmeans : sh.registry.Means type) (hv : v.Proper)
    (hp : place.present = some v)
    (hclean : ∀ r, .violated r ∉ Position.findings sh.registry sh.root
      ⟨.scalar optional type declared, place⟩) :
    (sh.shaped ⟨.scalar optional type declared, place⟩).same v = true := by
  obtain ⟨-, hshaped⟩ | ⟨hcheck, -⟩ := sh.shaped_scalar_cases hempty hmeans optional declared hp
  · rw [hshaped]
    exact Value.same_self hv
  · obtain ⟨r, hr⟩ := (violated_checked_iff hmeans v _).mpr hcheck
    exact absurd (by simpa only [Position.findings, hp] using hr) (hclean r)

theorem same_shaped_array {parts : List Tree} {items : List Value} (hparts : parts ≠ [])
    (hp : place.present = some (.arr items)) (hlength : parts.length ≤ items.length)
    (hnext : ∀ {q w}, Position.Next ⟨.array optional parts, place⟩ q → q.place.value = some w →
      (sh.shaped q).same w = true) :
    (sh.shaped ⟨.array optional parts, place⟩).same (.arr items) = true := by
  have hl : leavesOut sh.includeOptional optional place = false := leavesOut_of_present hp
  obtain rfl := place.items_of_present hp
  have hpart : ∀ {i t w}, nth parts i = some t → place.items[i]? = some w →
      (sh.shaped ⟨t, place.item i place.items[i]?⟩).same w = true := by
    intro i t w ht hw
    rw [hw]
    exact hnext (.item hp hw ht) rfl
  obtain ⟨built, hbuilt, hsame⟩ := sh.forall₂_shaped_array (R := fun v w => v.same w = true)
    hl hparts (Nat.max_eq_left hlength).symm hpart
  rw [hbuilt, Value.same_arr_iff]
  exact hsame

theorem same_shaped_object {fields : List (String × Tree)} {wildcard : Option Tree}
    {entries : List (String × Value)} (hn : (Table.names fields).Nodup)
    (hproper : (Value.obj entries).Proper) (hp : place.present = some (.obj entries))
    (hfields : ∀ name ∈ Table.names fields, name ∈ Table.names entries)
    (hothers : wildcard = none → fields ≠ [] →
      ∀ key ∈ Table.names entries, key ∈ Table.names fields)
    (hnext : ∀ {q w}, Position.Next ⟨.object optional fields wildcard, place⟩ q →
      q.place.value = some w → (sh.shaped q).same w = true) :
    (sh.shaped ⟨.object optional fields wildcard, place⟩).same (.obj entries) = true := by
  have hl : leavesOut sh.includeOptional optional place = false := leavesOut_of_present hp
  obtain rfl : place.entries = entries := place.entries_of_present hp
  by_cases hany : fields = [] ∧ wildcard = none
  · obtain ⟨rfl, rfl⟩ := hany
    rw [sh.shaped_object_any hl]
    exact Value.same_self hproper
  · have he := hproper.nodup
    rw [sh.shaped_object_of_nodup hl hany hn he, Value.same_obj_iff]
    refine ⟨length_shapedEntries hany hn he hfields hothers, fun e hmem => ?_⟩
    obtain ⟨name, t, hf, rfl⟩ | ⟨t, key, w, rfl, hw, rfl⟩ := sh.mem_shapedEntries hmem
    · -- a declared field, which the full object has
      obtain ⟨⟨_, w⟩, hw, rfl⟩ := List.mem_map.mp (hfields name (List.mem_map_of_mem hf))
      have hlookup := Table.lookup_eq_some_of_mem he hw
      exact ⟨w, hlookup, hnext (.field hp hf) hlookup⟩
    · -- another key, under the wildcard
      exact ⟨w, Table.lookup_eq_some_of_mem he (mem_undeclared.mp hw).1, hnext (.other hp hw) rfl⟩

end

/-- Where nothing violates the schema and nothing is lacking, the same value is built
again. -/
theorem Shaper.same_shaped (sh : Shaper) (hempty : sh.registry.get? "" = none)
    (hoptional : sh.includeOptional = false) (q : Position) (hq : q.Proper)
    (hmeans : q.schema.AllScalars fun _ type _ => sh.registry.Means type)
    (hclean : ∀ q', q.Reaches q' → (∀ r, .violated r ∉ q'.findings sh.registry sh.root) ∧ q'.IsFull)
    {v : Value} (hv : q.place.value = some v) : (sh.shaped q).same v = true := by
  induction q using Position.induct generalizing v with
  | h q ih =>
    have hnext : ∀ {q' w}, Position.Next q q' → q'.place.value = some w →
        (sh.shaped q').same w = true := fun hnext hw =>
      ih _ hnext (hq.next hnext) (Position.allScalars_next hmeans hnext)
        (fun q'' h => hclean q'' (.head hnext h)) hw
    obtain ⟨hfound, hfull⟩ := hclean q .refl
    have hproper := hq.value v hv
    obtain ⟨hschema, -⟩ := hq
    obtain ⟨schema, place⟩ := q
    cases hp : place.present with
    | none =>
      -- `null` under an optional schema stays
      have hnull : v = .null := Place.eq_null_of_absent hv hp
      have hleaves : leavesOut sh.includeOptional schema.optional place = true := by
        rw [leavesOut, hp, optional_of_clean hp hfound, hoptional]
        rfl
      rw [sh.shaped_of_leavesOut hleaves, hnull]
      rfl
    | some w =>
      obtain rfl : v = w := Option.some.inj (hv.symm.trans (Place.value_of_present hp))
      cases hschema with
      | scalar optional type declared =>
        cases hmeans with
        | scalar hmeans => exact same_shaped_scalar hempty hmeans hproper hp hfound
      | array hparts _ =>
        cases v with
        | arr items =>
          exact same_shaped_array hparts hp (by simpa only [Position.IsFull, hp] using hfull) hnext
        | _ =>
          refine absurd ?_ (hfound ⟨place.path, .shouldBeArray⟩)
          simp [Position.findings, hp, Value.items?]
      | @object _ fields wildcard hn _ _ =>
        cases v with
        | obj entries =>
          obtain ⟨hfields, hothers⟩ : (∀ name ∈ Table.names fields, name ∈ Table.names entries) ∧
              (wildcard = none → fields ≠ [] → ∀ key ∈ Table.names entries,
                key ∈ Table.names fields) := by
            simpa only [Position.IsFull, hp] using hfull
          exact same_shaped_object hn hproper hp hfields hothers hnext
        | _ =>
          refine absurd ?_ (hfound ⟨place.path, .shouldBeObject⟩)
          simp [Position.findings, hp, Value.fields?]

/-! ### Whole values -/

/-- **Shaping repairs exactly what validation reports.**  Validating a document
under a compiled schema whose types are known gives records.  At every position
that this reaches the shaped value has a value: a scalar that is there is kept if
there is no record of that position, and is replaced by its default or a sample if
there is one; an array and an object are filled up.  A document without records
that lacks nothing is shaped into itself, whatever the order of its fields. -/
theorem shape_repairs_records {s : FlatSchema} {schema : Arena} (hs : compile s = .ok schema)
    {registry : Registry} (hknown : registry.ensureKnown schema.types = .ok ())
    (hempty : registry.get? "" = none) {v : Value} (hv : v.Proper) (includeOptional : Bool)
    (draws : Path → Nat) :
    ∃ records, (validate v schema registry Path.defaultRoot).answer = .ok records ∧
      (∀ q, (Position.start schema.tree v Path.defaultRoot).Reaches q →
        ∃ w, (shape v schema registry includeOptional draws).answer.at? q.place.path.steps =
            some w ∧ q.Repaired registry draws records w) ∧
      (records = [] → includeOptional = false →
        (∀ q, (Position.start schema.tree v Path.defaultRoot).Reaches q → q.IsFull) →
        (shape v schema registry includeOptional draws).answer.same v = true) := by
  obtain ⟨records, hrecords, hmem⟩ := Position.exists_records hknown v Path.defaultRoot
  have hmeans := allScalars_known hknown
  let sh : Shaper := ⟨registry, v, includeOptional, draws⟩
  have hshape : (shape v schema registry includeOptional draws).answer =
      sh.shaped (Position.start schema.tree v Path.defaultRoot) := rfl
  have hstart : (Position.start schema.tree v Path.defaultRoot).Proper := by
    refine ⟨proper_of_compile hs, ?_⟩
    rintro _ ⟨⟩
    exact hv
  refine ⟨records, hrecords, fun q hq => ?_, fun hnil hoptional hfull => ?_⟩
  · obtain ⟨steps, hsteps, hat⟩ := sh.at?_shaped hstart hq
    refine ⟨sh.shaped q, ?_, ?_⟩
    · rw [hshape, hsteps]
      exact hat
    · refine sh.repaired_shaped hempty (hstart.reaches hq)
        (Position.allScalars_reaches hmeans hq) ⟨?_, ?_⟩
      · -- a record with the path of the position is a record of the position
        rintro ⟨r, hr, hpath⟩
        obtain ⟨q', hq', hfound⟩ := (hmem r).mp hr
        have hsame := Position.path_of_violated hfound
        obtain rfl := hq'.eq_of_path hstart hq (hsame.symm.trans hpath)
        exact ⟨r, hfound⟩
      · rintro ⟨r, hr⟩
        exact ⟨r, (hmem r).mpr ⟨q, hq, hr⟩, Position.path_of_violated hr⟩
  · rw [hshape]
    refine sh.same_shaped hempty hoptional _ hstart hmeans
      (fun q hq => ⟨fun r hr => ?_, hfull q hq⟩) rfl
    have hr' := (hmem r).mpr ⟨q, hq, hr⟩
    rw [hnil] at hr'
    cases hr'

/-- The schema `{a:?n,b:[s,i:7]}`, flat and compiled. -/
def pairFlat : FlatSchema := ⟨['1'], ["[s,i:7]".toList, "{a:?n,b:0}".toList], []⟩

@[inherit_doc pairFlat] def pairSchema : Arena where
  nodes := [.scalar true "n" none, .scalar false "s" none,
    .scalar false "i" (some (.bare "7")), .array false [1, 2],
    .object false [("a", 0), ("b", 3)] none]
  root := 4

/-- A document with an item of another type, one that is not there and a key that is
not declared. -/
def pairValue : Value := .obj [("b", .arr [.int 1, .null]), ("z", .bool true)]

theorem shape_repairs_pairValue : ∃ records,
    (validate pairValue pairSchema .builtin Path.defaultRoot).answer = .ok records ∧
      (∀ q, (Position.start pairSchema.tree pairValue Path.defaultRoot).Reaches q →
        ∃ w, (shape pairValue pairSchema .builtin false fun _ => 0).answer.at?
            q.place.path.steps = some w ∧ q.Repaired .builtin (fun _ => 0) records w) ∧
      (records = [] →
        (∀ q, (Position.start pairSchema.tree pairValue Path.defaultRoot).Reaches q →
          q.IsFull) →
        (shape pairValue pairSchema .builtin false fun _ => 0).answer.same pairValue = true) := by
  have hcompile : compile pairFlat = .ok pairSchema :=
    compile_of_groups [.array [⟨false, .scalar "s" none⟩, ⟨false, .scalar "i" (some (.bare "7"))⟩],
      .object [("a", ⟨true, .scalar "n" none⟩), ("b", ⟨false, .reference 0⟩)]]
      ⟨false, .reference 1⟩ (by decide) (by decide) (by decide)
  have hempty : Registry.builtin.get? "" = none := Option.isNone_iff_eq_none.mp (by decide)
  have hproper : pairValue.Proper := by
    refine .obj (by decide) ?_
    simp only [List.forall_mem_cons]
    refine ⟨.arr ?_, .bool true, List.forall_mem_nil _⟩
    simp only [List.forall_mem_cons]
    exact ⟨.num _, .null, List.forall_mem_nil _⟩
  obtain ⟨records, hrecords, hrepaired, hsame⟩ :=
    shape_repairs_records hcompile (by decide) hempty hproper false fun _ => 0
  exact ⟨records, hrecords, hrepaired, fun hnil => hsame hnil rfl⟩

end TerseSchema
