import TerseSchema.Inference
import TerseSchema.Proofs.Faults
import TerseSchema.Proofs.Nodes
import TerseSchema.Proofs.RoundTrip

/-!
# An example fits the schema that is read off it

The schema of an example is the text of a draft: every key that can be written is a
name that can be told from the structure around it, and means itself.  The text
therefore reads back, and what is read back asks of a value what the example has,
provided that the items of an array are all like the first one.

## Main definitions

* `Value.draft` — the draft whose text is the schema of an example.
* `Value.Uniform` — at every array, all items have the schema of the first one.
* `Position.Exemplified` — a position where a value meets the schema read off it.

## Main results

* `compile_inferSchema` — **the schema of an example compiles, with known types only.**
* `Position.Exemplified.next`, `Position.Exemplified.notMem_findings` — the invariant
  of the walk over an example.
* `check_inferSchema` — **an example fits the schema that is read off it.**
-/

namespace TerseSchema

/-! ### The draft of an example -/

mutual

/-- The draft whose text is the schema of an example. -/
def Value.draft : Value → Draft
  | .null => .scalar true "" none
  | .bool _ => .scalar false "b" none
  | .num n => .scalar false (if n.isWhole then "i" else "n") none
  | .str _ => .scalar false "s" none
  | .arr items => .array false [draftFirst items]
  | .obj fields => .object false (draftFields fields)

/-- The draft of the first item; any value fits where there is none. -/
def Value.draftFirst : List Value → Draft
  | [] => .scalar false "" none
  | v :: _ => v.draft

/-- The entries of the fields that can be written. -/
def Value.draftFields : List (String × Value) → List (Option String × Draft)
  | [] => []
  | (key, v) :: fields =>
    if isPlainKey key then (some key, v.draft) :: draftFields fields else draftFields fields

end

/-- The fields that can be written. -/
def writtenFields (fields : List (String × Value)) : List (String × Value) :=
  fields.filter fun f => isPlainKey f.1

theorem writtenFields_cons (f : String × Value) (fields : List (String × Value)) :
    writtenFields (f :: fields) =
      if isPlainKey f.1 then f :: writtenFields fields else writtenFields fields :=
  List.filter_cons

theorem mem_writtenFields {fields : List (String × Value)} {f : String × Value} :
    f ∈ writtenFields fields ↔ f ∈ fields ∧ isPlainKey f.1 = true :=
  List.mem_filter

theorem inferredFields_eq_map (fields : List (String × Value)) :
    Value.inferredFields fields =
      (writtenFields fields).map fun f => f.1.toList ++ ':' :: f.2.inferred := by
  induction fields with
  | nil => rfl
  | cons f fields ih =>
    rw [Value.inferredFields, ih, writtenFields_cons]
    split <;> rfl

theorem draftFields_eq_map (fields : List (String × Value)) :
    Value.draftFields fields = (writtenFields fields).map fun f => (some f.1, f.2.draft) := by
  induction fields with
  | nil => rfl
  | cons f fields ih =>
    rw [Value.draftFields, ih, writtenFields_cons]
    split <;> rfl

/-! ### Its text -/

theorem spelled_append (a b : List Char) : spelled (a ++ b) = spelled a ++ spelled b :=
  List.map_append

theorem spelled_intercalate (pieces : List (List Char)) :
    spelled ([','].intercalate pieces) = [.mark ','].intercalate (pieces.map spelled) := by
  induction pieces with
  | nil => rfl
  | cons piece pieces ih =>
    by_cases hnil : pieces = []
    · subst hnil
      simp
    · have hmap : pieces.map spelled ≠ [] := by simpa using hnil
      rw [List.intercalate_cons_of_ne_nil hnil, List.map_cons,
        List.intercalate_cons_of_ne_nil hmap, spelled_append, spelled_append, ih]
      rfl

/-- **The schema of an example is the text of its draft.** -/
theorem lexemes_draft (v : Value) : v.draft.lexemes = spelled v.inferred := by
  induction v using Value.induct with
  | null => rfl
  | bool b => rfl
  | num n =>
    rw [Value.draft, Value.inferred]
    split <;> rfl
  | str s => rfl
  | arr items ih =>
    have hfirst : (Value.draftFirst items).lexemes = spelled (Value.inferredFirst items) := by
      cases items with
      | nil => rfl
      | cons v items => exact ih v List.mem_cons_self
    rw [Value.draft, Value.inferred, Draft.lexemes, Draft.partLexemes_eq_map, groupLexemes,
      List.map_singleton, List.intercalate_singleton, hfirst, spelled_append]
    rfl
  | obj fields ih =>
    have hentries : (Value.draftFields fields).map
        (fun e => spelled ((entryName e.1).toList ++ [':']) ++ e.2.lexemes) =
          (Value.inferredFields fields).map spelled := by
      rw [draftFields_eq_map, inferredFields_eq_map, List.map_map, List.map_map]
      refine List.map_congr_left fun f hf => ?_
      have hvalue := ih f (mem_writtenFields.mp hf).1
      rw [Function.comp_apply, Function.comp_apply, hvalue, ← spelled_append, List.append_assoc]
      rfl
    rw [Value.draft, Value.inferred, Draft.lexemes, Draft.entryLexemes_eq_map, groupLexemes,
      hentries, ← spelled_intercalate, spelled_append]
    rfl

theorem writtenAs_inferSchema (v : Value) : v.draft.WrittenAs (inferSchema v) := by
  rw [Draft.WrittenAs, lexemes_draft, inferSchema, String.toList_ofList]
  exact spells_spelled v.inferred

/-- A key that can be written is a word, and is not `*`. -/
theorem isWord_of_isPlainKey {key : String} (h : isPlainKey key = true) :
    IsWord key ∧ key ≠ wildcardName := by
  simp only [isPlainKey, Bool.and_eq_true, decide_eq_true_eq, List.all_eq_true,
    Bool.not_eq_true'] at h
  refine ⟨fun c hc => ⟨(h.2 c hc).1, fun hmem => (h.2 c hc).2 ?_⟩, h.1⟩
  simp only [List.mem_cons, List.not_mem_nil, or_false, reserved] at hmem ⊢
  tauto

theorem isTypeName_inferred : ∀ type ∈ ["", "b", "i", "n", "s"], IsTypeName type := by
  intro type h
  simp only [List.mem_cons, List.not_mem_nil, or_false] at h
  rcases h with rfl | rfl | rfl | rfl | rfl <;> exact ⟨by decide, by decide, by decide⟩

/-- The draft of an example can be read. -/
theorem wellFormed_draft (v : Value) : v.draft.WellFormed := by
  have hscalar : ∀ optional, ∀ type ∈ ["", "b", "i", "n", "s"],
      (Draft.scalar optional type none).WellFormed :=
    fun optional type h => .scalar (isTypeName_inferred type h) (by simp)
  induction v using Value.induct with
  | null => exact hscalar true "" (by simp)
  | bool b => exact hscalar false "b" (by simp)
  | num n =>
    rw [Value.draft]
    split
    · exact hscalar false "i" (by simp)
    · exact hscalar false "n" (by simp)
  | str s => exact hscalar false "s" (by simp)
  | arr items ih =>
    rw [Value.draft]
    refine .array (List.cons_ne_nil _ _) (List.forall_mem_singleton.mpr ?_)
    cases items with
    | nil => exact hscalar false "" (by simp)
    | cons v items => exact ih v List.mem_cons_self
  | obj fields ih =>
    rw [Value.draft, draftFields_eq_map]
    refine .object (List.forall_mem_map.mpr fun f hf => ?_) (List.forall_mem_map.mpr fun f hf => ?_)
    · rintro name ⟨⟩
      exact isWord_of_isPlainKey (mem_writtenFields.mp hf).2
    · exact ih f (mem_writtenFields.mp hf).1

/-! ### What is read back -/

/-- Every scalar of a draft has a property. -/
inductive Draft.AllScalars (p : Bool → String → Option Default → Prop) : Draft → Prop
  | scalar {optional : Bool} {type : String} {declared : Option Default} :
      p optional type declared → AllScalars p (.scalar optional type declared)
  | array {optional : Bool} {parts : List Draft} : (∀ d ∈ parts, AllScalars p d) →
      AllScalars p (.array optional parts)
  | object {optional : Bool} {entries : List (Option String × Draft)} :
      (∀ e ∈ entries, AllScalars p e.2) → AllScalars p (.object optional entries)

/-- What holds of the scalars of a draft holds of those met below the term that is
read for it, also below entries whose name is given again. -/
theorem isReading_meetsScalars (p : Bool → String → Option Default → Prop) :
    IsReading fun d s bound t => d.AllScalars p → MeetsScalars p s bound t where
  scalar := by
    intro optional type declared s bound h
    cases h with
    | scalar hp => exact meetsScalars_scalar.mpr hp
  array := by
    intro optional parts s bound index terms _ hgroup hterms h
    cases h with
    | array hparts =>
      rw [meetsScalars_reference, hgroup]
      intro _
      exact forall_mem_right ((List.forall₂_and_left _ _).mpr ⟨hparts, hterms⟩)
        fun d t h => h.2 h.1
  object := by
    intro optional entries s bound index terms _ hgroup _ hterms h
    cases h with
    | object hentries =>
      rw [meetsScalars_reference, hgroup]
      intro _
      refine List.forall_mem_map.mpr ?_
      exact forall_mem_right ((List.forall₂_and_left _ _).mpr ⟨hentries, hterms⟩)
        fun e t h => h.2.2 h.1

/-- The scalars that are read off an example are builtin, or stand for any value. -/
theorem allScalars_draft (v : Value) :
    v.draft.AllScalars fun _ type _ => Registry.builtin.Means type := by
  have hbuiltin : ∀ type ∈ ["b", "i", "n", "s"], Registry.builtin.Means type := by
    intro type h
    have hhas : Registry.builtin.has type = true := by
      revert type
      decide
    exact .inr (Option.isSome_iff_exists.mp hhas)
  induction v using Value.induct with
  | null => exact .scalar (.inl rfl)
  | bool b => exact .scalar (hbuiltin "b" (by simp))
  | num n =>
    rw [Value.draft]
    split
    · exact .scalar (hbuiltin "i" (by simp))
    · exact .scalar (hbuiltin "n" (by simp))
  | str s => exact .scalar (hbuiltin "s" (by simp))
  | arr items ih =>
    rw [Value.draft]
    refine .array (List.forall_mem_singleton.mpr ?_)
    cases items with
    | nil => exact .scalar (.inl rfl)
    | cons v items => exact ih v List.mem_cons_self
  | obj fields ih =>
    rw [Value.draft, draftFields_eq_map]
    exact .object (List.forall_mem_map.mpr fun f hf => ih f (mem_writtenFields.mp hf).1)

/-- **The schema of an example compiles**, to that of its draft and with known types
only. -/
theorem compile_inferSchema {v : Value} (hlength : (inferSchema v).length ≤ pow2 64) :
    ∃ s a, flatten (inferSchema v) = .ok s ∧ compile s = .ok a ∧ a.tree = v.draft.tree ∧
      ∀ type ∈ a.types, Registry.builtin.Means type := by
  obtain ⟨s, hs, helaborate⟩ :=
    flatten_of_writtenAs (wellFormed_draft v) (writtenAs_inferSchema v) hlength
  obtain ⟨s', hs', hmeets⟩ := flatten_of_isReading
    (isReading_meetsScalars fun _ type _ => Registry.builtin.Means type) (wellFormed_draft v)
    (writtenAs_inferSchema v) hlength
  obtain rfl := Except.ok.inj (hs.symm.trans hs')
  obtain ⟨a, ha, htree⟩ := compile_of_elaborate helaborate
  refine ⟨s, a, hs, ha, htree, fun type htype => ?_⟩
  obtain ⟨node, hnode, htype⟩ := List.mem_filterMap.mp htype
  obtain ⟨id, hid⟩ := List.mem_iff_getElem?.mp hnode
  cases fits_of_compile ha (hmeets (allScalars_draft v)) hid with
  | scalar hp =>
    obtain rfl := Option.some.inj htype
    exact hp
  | array _ _ => cases htype
  | object _ _ _ _ => cases htype

/-- Examples with one schema have drafts for one schema. -/
theorem tree_draft_eq {v w : Value} (h : inferSchema v = inferSchema w)
    (hlength : (inferSchema v).length ≤ pow2 64) : v.draft.tree = w.draft.tree := by
  obtain ⟨s, hs, hv⟩ := flatten_of_writtenAs (wellFormed_draft v) (writtenAs_inferSchema v) hlength
  obtain ⟨s', hs', hw⟩ :=
    flatten_of_writtenAs (wellFormed_draft w) (writtenAs_inferSchema w) (h ▸ hlength)
  rw [h] at hs
  obtain rfl := Except.ok.inj (hs.symm.trans hs')
  exact Except.ok.inj (hv.symm.trans hw)

/-! ### Lengths -/

theorem length_le_intercalate {pieces : List (List Char)} {piece : List Char}
    (h : piece ∈ pieces) : piece.length ≤ ([','].intercalate pieces).length := by
  induction pieces with
  | nil => cases h
  | cons first pieces ih =>
    by_cases hnil : pieces = []
    · subst hnil
      rw [List.mem_singleton.mp h, List.intercalate_singleton]
    · rw [List.intercalate_cons_of_ne_nil hnil]
      simp only [List.length_append]
      rcases List.mem_cons.mp h with rfl | h
      · omega
      · have hle := ih h
        omega

/-- The schema of the first item is part of that of the array. -/
theorem length_inferSchema_first (v : Value) (items : List Value) :
    (inferSchema v).length ≤ (inferSchema (.arr (v :: items))).length := by
  simp only [inferSchema, String.length_ofList, Value.inferred, Value.inferredFirst,
    List.cons_append, List.length_cons, List.length_append]
  omega

/-- The schema of a field that can be written is part of that of the object. -/
theorem length_inferSchema_field {fields : List (String × Value)} {f : String × Value}
    (hf : f ∈ writtenFields fields) :
    (inferSchema f.2).length ≤ (inferSchema (.obj fields)).length := by
  have hmem : f.1.toList ++ ':' :: f.2.inferred ∈ Value.inferredFields fields := by
    rw [inferredFields_eq_map]
    exact List.mem_map_of_mem hf
  have hle := length_le_intercalate hmem
  simp only [List.length_append, List.length_cons] at hle
  simp only [inferSchema, String.length_ofList, Value.inferred, List.cons_append,
    List.length_cons, List.length_append]
  omega

/-! ### The walk over an example -/

/-- At every array, all items have the schema of the first one. -/
inductive Value.Uniform : Value → Prop
  | null : Uniform .null
  | bool (b : Bool) : Uniform (.bool b)
  | num (n : Number) : Uniform (.num n)
  | str (s : String) : Uniform (.str s)
  | arr {items : List Value} :
      (∀ first ∈ items.head?, ∀ v ∈ items, inferSchema v = inferSchema first) →
      (∀ v ∈ items, Uniform v) → Uniform (.arr items)
  | obj {fields : List (String × Value)} : (∀ f ∈ fields, Uniform f.2) → Uniform (.obj fields)

namespace Position

/-- A position where an example meets the schema that is read off it. -/
def Exemplified (q : Position) : Prop :=
  ∃ v, q.place.value = some v ∧ q.schema = v.draft.tree ∧ v.Proper ∧ v.Uniform ∧
    (inferSchema v).length ≤ pow2 64

/-- The items of an example meet the schema of the first one. -/
theorem exemplified_item {optional : Bool} {parts : List Tree} {items : List Value}
    (hschema : .array optional parts = (Value.arr items).draft.tree)
    (hproper : (Value.arr items).Proper) (huniform : (Value.arr items).Uniform)
    (hlength : (inferSchema (.arr items)).length ≤ pow2 64) {i : Nat} {v : Value} {t : Tree}
    (hv : items[i]? = some v) (ht : nth parts i = some t) (place : Place)
    (hplace : place.value = some v) : Exemplified ⟨t, place⟩ := by
  have hmem : v ∈ items := List.mem_of_getElem? hv
  cases items with
  | nil => cases hmem
  | cons first items =>
    cases huniform with
    | arr hsame huniform =>
      have hfirst : inferSchema v = inferSchema first := hsame first rfl v hmem
      have hle := length_inferSchema_first first items
      rw [← hfirst] at hle
      have hvlength : (inferSchema v).length ≤ pow2 64 := Nat.le_trans hle hlength
      have hparts : parts = [first.draft.tree] := by
        rw [Value.draft, Draft.tree, Draft.partTrees_eq_map] at hschema
        exact (Tree.array.inj hschema).2
      have htree : t = v.draft.tree := by
        rw [tree_draft_eq hfirst hvlength]
        exact List.mem_singleton.mp (hparts ▸ List.mem_of_getElem? ht)
      exact ⟨v, hplace, htree, hproper.item v hmem, huniform v hmem, hvlength⟩

theorem mem_of_lookup_reverse {entries : List (Option String × Tree)} {name : Option String}
    {t : Tree} (h : entries.reverse.lookup name = some t) : (name, t) ∈ entries := by
  obtain ⟨before, after, hsplit, -⟩ := List.lookup_eq_some_iff.mp h
  rw [← List.mem_reverse, hsplit]
  exact List.mem_append_right _ List.mem_cons_self

/-- The entries of an example are its fields, as far as they can be written. -/
theorem mem_entryTrees_draft {fields : List (String × Value)} {name : Option String} {t : Tree}
    (h : (name, t) ∈ Draft.entryTrees (Value.draftFields fields)) :
    ∃ key v, name = some key ∧ t = v.draft.tree ∧ (key, v) ∈ writtenFields fields := by
  rw [Draft.entryTrees_eq_map, draftFields_eq_map, List.map_map] at h
  obtain ⟨⟨key, v⟩, hv, he⟩ := List.mem_map.mp h
  obtain ⟨rfl, rfl⟩ := Prod.mk.inj he
  exact ⟨key, v, rfl, rfl, hv⟩

/-- A declared field is one that is there and can be written. -/
theorem mem_fieldsOf_draft {fields : List (String × Value)} {name : String} {t : Tree}
    (h : (name, t) ∈ fieldsOf (Draft.entryTrees (Value.draftFields fields))) :
    ∃ v, (name, v) ∈ writtenFields fields ∧ t = v.draft.tree := by
  obtain ⟨name', -, hmap⟩ := List.mem_filterMap.mp h
  obtain ⟨t', hlookup, he⟩ := Option.map_eq_some_iff.mp hmap
  obtain ⟨rfl, rfl⟩ := Prod.mk.inj he
  obtain ⟨key, v, hkey, htree, hv⟩ := mem_entryTrees_draft (mem_of_lookup_reverse hlookup)
  obtain rfl := Option.some.inj hkey
  exact ⟨v, hv, htree⟩

/-- No entry of an example stands for other keys. -/
theorem restOf_draft (fields : List (String × Value)) :
    restOf (Draft.entryTrees (Value.draftFields fields)) = none := by
  cases h : restOf (Draft.entryTrees (Value.draftFields fields)) with
  | none => rfl
  | some t =>
    obtain ⟨key, v, hkey, -⟩ := mem_entryTrees_draft (mem_of_lookup_reverse h)
    cases hkey

/-- The fields of an example meet their own schemas. -/
theorem exemplified_field {fields : List (String × Value)} (hproper : (Value.obj fields).Proper)
    (huniform : (Value.obj fields).Uniform)
    (hlength : (inferSchema (.obj fields)).length ≤ pow2 64) {name : String} {t : Tree}
    (ht : (name, t) ∈ fieldsOf (Draft.entryTrees (Value.draftFields fields))) (place : Place)
    (hplace : place.value = fields.lookup name) : Exemplified ⟨t, place⟩ := by
  obtain ⟨v, hv, rfl⟩ := mem_fieldsOf_draft ht
  have hmem : (name, v) ∈ fields := (mem_writtenFields.mp hv).1
  have hlookup : fields.lookup name = some v := Table.lookup_eq_some_of_mem hproper.nodup hmem
  have hvlength := Nat.le_trans (length_inferSchema_field hv) hlength
  cases huniform with
  | obj huniform =>
    exact ⟨v, hplace.trans hlookup, rfl, hproper.field _ hmem, huniform _ hmem, hvlength⟩

/-- **The walk over an example only meets parts of it with their own schemas.** -/
theorem Exemplified.next {q q' : Position} (hq : q.Exemplified) (h : Next q q') :
    q'.Exemplified := by
  obtain ⟨w, hvalue, hschema, hproper, huniform, hlength⟩ := hq
  cases h with
  | @item optional parts place items i v t hp hv ht =>
    obtain rfl : w = .arr items :=
      Option.some.inj (hvalue.symm.trans (Place.value_of_present hp))
    exact exemplified_item hschema hproper huniform hlength hv ht _ rfl
  | @field optional fields wildcard place entries name t hp hf =>
    obtain rfl : w = .obj entries :=
      Option.some.inj (hvalue.symm.trans (Place.value_of_present hp))
    rw [Value.draft, Draft.tree] at hschema
    obtain ⟨-, rfl, -⟩ := Tree.object.inj hschema
    exact exemplified_field hproper huniform hlength hf _ rfl
  | @other optional fields t place entries key v hp hv =>
    obtain rfl : w = .obj entries :=
      Option.some.inj (hvalue.symm.trans (Place.value_of_present hp))
    rw [Value.draft, Draft.tree, restOf_draft] at hschema
    obtain ⟨-, -, hrest⟩ := Tree.object.inj hschema
    cases hrest

theorem Exemplified.reaches {q q' : Position} (hq : q.Exemplified) (h : Reaches q q') :
    q'.Exemplified := by
  induction h with
  | refl => exact hq
  | tail _ hstep ih => exact ih.next hstep

/-- A value of a builtin kind has no record under a name of the kind. -/
theorem notMem_checked_builtin {type : String} {kind : Primitive} {v : Value}
    (hget : Registry.builtin.get? type = some (.primitive kind)) (hcheck : kind.check v = true)
    (ctx : Context) (r : Record) : .violated r ∉ checked .builtin type v ctx := by
  intro hr
  have hanswer : Registry.builtin.check type v ctx = .ok true := by
    rw [Registry.check, hget]
    split
    · rfl
    · exact congrArg Except.ok hcheck
  have hfalse := (violated_checked_iff (.inr ⟨_, hget⟩) v ctx).mp ⟨r, hr⟩
  rw [hanswer] at hfalse
  cases hfalse

/-- **Where an example meets its own schema, nothing is violated.** -/
theorem Exemplified.notMem_findings {q : Position} (hq : q.Exemplified) (root : Value)
    (r : Record) : .violated r ∉ q.findings .builtin root := by
  obtain ⟨schema, place⟩ := q
  obtain ⟨v, hvalue, hschema, -⟩ := hq
  obtain rfl : schema = v.draft.tree := hschema
  have hvalue : place.value = some v := hvalue
  have hb : Registry.builtin.get? "b" = some (.primitive .boolean) := rfl
  have hi : Registry.builtin.get? "i" = some (.primitive .integer) := rfl
  have hn : Registry.builtin.get? "n" = some (.primitive .number) := rfl
  have hs : Registry.builtin.get? "s" = some (.primitive .string) := rfl
  have hpresent : v ≠ .null → place.present = some v := Place.present_of_value hvalue
  intro hr
  cases v with
  | null =>
    have hp : place.present = none := Place.present_of_null hvalue
    simp only [Value.draft, Draft.tree, findings, hp, missing, if_true] at hr
    cases hr
  | bool b =>
    simp only [Value.draft, Draft.tree, findings, hpresent (by simp)] at hr
    exact notMem_checked_builtin hb rfl _ r hr
  | num n =>
    simp only [Value.draft, Draft.tree, findings, hpresent (by simp)] at hr
    by_cases hwhole : n.isWhole = true
    · have hcheck : Primitive.integer.check (.num n) = true := hwhole
      rw [if_pos hwhole] at hr
      exact notMem_checked_builtin hi hcheck _ r hr
    · rw [if_neg hwhole] at hr
      exact notMem_checked_builtin hn rfl _ r hr
  | str s =>
    simp only [Value.draft, Draft.tree, findings, hpresent (by simp)] at hr
    exact notMem_checked_builtin hs rfl _ r hr
  | arr items =>
    simp only [Value.draft, Draft.tree, findings, hpresent (by simp)] at hr
    cases hr
  | obj fields =>
    simp only [Value.draft, Draft.tree, findings, hpresent (by simp)] at hr
    cases hr

end Position

/-! ### Whole examples -/

/-- An example has no records under the schema that is read off it. -/
theorem validate_inferSchema {v : Value} (hproper : v.Proper) (huniform : v.Uniform)
    (hlength : (inferSchema v).length ≤ pow2 64) {a : Arena} (htree : a.tree = v.draft.tree)
    (htypes : ∀ type ∈ a.types, Registry.builtin.Means type) (pathRoot : String) :
    (validate v a .builtin pathRoot).answer = .ok [] := by
  obtain ⟨records, hrecords, hmem⟩ :=
    Position.exists_records (ensureKnown_of_means htypes) v pathRoot
  have hstart : (Position.start a.tree v pathRoot).Exemplified :=
    ⟨v, rfl, htree, hproper, huniform, hlength⟩
  have hnil : records = [] := by
    refine List.eq_nil_iff_forall_not_mem.mpr fun r hr => ?_
    obtain ⟨q, hreach, hfound⟩ := (hmem r).mp hr
    exact (hstart.reaches hreach).notMem_findings v r hfound
  rw [hrecords, hnil]

/-- **An example fits the schema that is read off it.**  The schema of an example is
read without an error and names builtin types only.  If at every array all items have
the schema of the first one, and no object has two fields of one name, the example
passes, whatever its keys are.  The bound is that of the numbers a flat schema may
hold, and no text of an address space of 64 bits is longer. -/
theorem check_inferSchema {v : Value} (hlength : (inferSchema v).length ≤ pow2 64) :
    ∃ s a, flatten (inferSchema v) = .ok s ∧ compile s = .ok a ∧
      (∀ type ∈ a.types, Registry.builtin.Means type) ∧
      (v.Proper → v.Uniform → ∀ (session : Session) (options : VerifyOptions),
        session.activation.isActive = true → session.types = [] → options.types = [] →
        (session.check v (inferSchema v) options).answer = .ok true) := by
  obtain ⟨s, a, hs, ha, htree, htypes⟩ := compile_inferSchema hlength
  refine ⟨s, a, hs, ha, htypes, fun hproper huniform session options hactive hglobal hcall => ?_⟩
  have hcompile : compileText (inferSchema v) = .ok a := by
    rw [compileText, hs]
    exact ha
  have hregistry : session.registry options.types = .builtin := by
    rw [Session.registry, hglobal, hcall]
    rfl
  have hrecords := validate_inferSchema hproper huniform hlength htree htypes options.pathRoot
  simp only [Session.check, Session.verify, hactive, if_true, hcompile, hregistry, hrecords]

/-- An example with keys that cannot be written, keys that look like marks, references
and placeholders, and items that differ where their schema does not say so. -/
def oddExample : Value :=
  .obj [("", .null), ("12", .arr [.arr [], .arr []]), ("*", .int 1), ("?x", .str "t"),
    ("$0", .bool true), ("a b", .null), ("a:\"]", .null),
    ("o", .arr [.obj [("k", .int 1)], .obj [("k", .int 2), (",", .null)]])]

theorem proper_oddExample : oddExample.Proper := by
  refine .obj (by decide) ?_
  simp only [List.forall_mem_cons]
  refine ⟨.null, .arr ?_, .num _, .str _, .bool _, .null, .null, .arr ?_, List.forall_mem_nil _⟩
  · simp only [List.forall_mem_cons]
    exact ⟨.arr (List.forall_mem_nil _), .arr (List.forall_mem_nil _), List.forall_mem_nil _⟩
  · simp only [List.forall_mem_cons]
    refine ⟨.obj (by decide) ?_, .obj (by decide) ?_, List.forall_mem_nil _⟩
    · exact List.forall_mem_singleton.mpr (.num _)
    · simp only [List.forall_mem_cons]
      exact ⟨.num _, .null, List.forall_mem_nil _⟩

theorem uniform_oddExample : oddExample.Uniform := by
  refine .obj ?_
  simp only [List.forall_mem_cons]
  refine ⟨.null, .arr ?_ ?_, .num _, .str _, .bool _, .null, .null, .arr ?_ ?_,
    List.forall_mem_nil _⟩
  · rintro first ⟨⟩
    simp only [List.forall_mem_cons]
    exact ⟨trivial, trivial, List.forall_mem_nil _⟩
  · have hempty : (Value.arr []).Uniform := .arr (by simp) (List.forall_mem_nil _)
    simp only [List.forall_mem_cons]
    exact ⟨hempty, hempty, List.forall_mem_nil _⟩
  · rintro first ⟨⟩
    simp only [List.forall_mem_cons]
    exact ⟨trivial, by decide, List.forall_mem_nil _⟩
  · simp only [List.forall_mem_cons]
    refine ⟨.obj ?_, .obj ?_, List.forall_mem_nil _⟩
    · exact List.forall_mem_singleton.mpr (.num _)
    · simp only [List.forall_mem_cons]
      exact ⟨.num _, .null, List.forall_mem_nil _⟩

theorem check_inferSchema_oddExample :
    inferSchema oddExample = "\x7b:?,12:[[]],?x:s,$0:b,o:[\x7bk:i\x7d]\x7d" ∧
      (({} : Session).check oddExample (inferSchema oddExample) {}).answer = .ok true := by
  have htext : inferSchema oddExample = "\x7b:?,12:[[]],?x:s,$0:b,o:[\x7bk:i\x7d]\x7d" := by
    decide +kernel
  have hlength : (inferSchema oddExample).length ≤ pow2 64 := by
    rw [htext]
    decide
  obtain ⟨s, a, -, -, -, hcheck⟩ := check_inferSchema hlength
  exact ⟨htext, hcheck proper_oddExample uniform_oddExample {} {} rfl rfl rfl⟩

end TerseSchema
