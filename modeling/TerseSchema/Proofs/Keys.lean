import TerseSchema.Proofs.Decimals
import TerseSchema.Proofs.Parsed

/-!
# Keys of different kinds

The keys of a mapping are different when it is read, and become texts when it is
converted.  A number or a truth value has a text of its own: a number is read back from
its text, whether it is an integer or a float, and no other text that is written is a
number.  A text, though, can spell any of them, and of two entries with one text the
earlier one gives up its value.  That is the only way in which a mapping loses an entry.

## Main definitions

* `Datum.Apart` — no text among the keys of a mapping spells another key.
* `Datum.Mirrors` — a value with one field for each entry of each mapping.
* `Datum.lastOf` — the last entry with a text.

## Main results

* `Number.keyText_injective` — different numbers have different texts.
* `Datum.eq_of_keyText?` — two texts aside, so have different keys.
* `Datum.nodup_keyTexts_iff_apart` — the texts of different keys are different if and only
  if the keys are apart.
* `Datum.entries_kept_iff` — **conversion keeps the entries of mappings whose keys are
  apart, and loses one of any other mapping.**
* `loadDocument_mirrors_iff` — the same of documents that are loaded.
-/

namespace TerseSchema.Yaml

/-! ### The texts of keys -/

namespace Number

/-- The pieces of a number that is written in digits. -/
def pieces? : Number → Option DecimalText
  | .int z => some (integerPieces z)
  | .float x => some (x.pieces "")
  | .infinite _ | .nan => none

/-- No plus is written in front of an exponent. -/
theorem no_plus : "".toList ∈ [[], ['+']] := by decide

theorem scan_keyText (n : Number) : DecimalText.scan n.keyText.toList = n.pieces? := by
  cases n with
  | int z =>
    show DecimalText.scan (toString z).toList = some (integerPieces z)
    rw [toList_toString_int, (integerPieces_plain z).wellFormed.scan_chars]
  | float x =>
    show DecimalText.scan (x.text "").toList = some (x.pieces "")
    rw [Double.toList_text_eq_chars, (Double.pieces_plain no_plus x).wellFormed.scan_chars]
  | infinite negative => cases negative <;> decide
  | nan => decide

/-- **Different numbers have different texts.** -/
theorem keyText_injective {m n : Number} (h : m.keyText = n.keyText) : m = n := by
  have hpieces : m.pieces? = n.pieces? := by
    rw [← scan_keyText, ← scan_keyText, h]
  cases m with
  | int y =>
    cases n with
    | int z => exact congrArg Number.int (integerPieces_injective (Option.some.inj hpieces))
    | float x => exact absurd (Option.some.inj hpieces).symm (x.pieces_ne_integerPieces "" y)
    | infinite negative | nan => cases hpieces
  | float x =>
    cases n with
    | int z => exact absurd (Option.some.inj hpieces) (x.pieces_ne_integerPieces "" z)
    | float y =>
      have htext : x.text "" = y.text "" := h
      exact congrArg Number.float (Double.text_injective no_plus htext)
    | infinite negative | nan => cases hpieces
  | infinite b =>
    cases n with
    | int z | float x => cases hpieces
    | infinite c =>
      revert h
      cases b <;> cases c <;> decide
    | nan =>
      revert h
      cases b <;> decide
  | nan =>
    cases n with
    | int z | float x => cases hpieces
    | infinite c =>
      revert h
      cases c <;> decide
    | nan => rfl

/-- No number has the text of a truth value. -/
theorem keyText_ne_toString (n : Number) (b : Bool) : n.keyText ≠ toString b := by
  intro h
  have hscan := scan_keyText n
  have hnone : DecimalText.scan (toString b).toList = none := by cases b <;> decide
  rw [h, hnone] at hscan
  cases n with
  | int z | float x => cases hscan
  | infinite negative =>
    revert h
    cases negative <;> cases b <;> decide
  | nan =>
    revert h
    cases b <;> decide

theorem same_self (n : Number) : n.same n = true := by
  cases n with
  | int z => exact decide_eq_true rfl
  | float x =>
    rw [same, Double.same, decide_eq_true rfl, Bool.or_true]
  | infinite negative => exact decide_eq_true rfl
  | nan => rfl

end Number

namespace Datum

/-- A key that is a text itself. -/
def isText : Datum → Bool
  | .str _ => true
  | _ => false

/-- **A key is known by its text and by whether it is a text itself.** -/
theorem eq_of_keyText? {k l : Datum} {name : String} (hk : k.keyText? = some name)
    (hl : l.keyText? = some name) (h : k.isText = l.isText) : k = l := by
  rw [← hl] at hk
  cases k with
  | str s =>
    cases l with
    | str t => exact congrArg Datum.str (Option.some.inj hk)
    | _ => cases h
  | num m =>
    cases l with
    | num n => exact congrArg Datum.num (Number.keyText_injective (Option.some.inj hk))
    | bool b => exact absurd (Option.some.inj hk) (m.keyText_ne_toString b)
    | str s => cases h
    | _ => cases hl
  | bool b =>
    cases l with
    | num n => exact absurd (Option.some.inj hk).symm (n.keyText_ne_toString b)
    | bool c =>
      revert hk
      cases b <;> cases c <;> decide
    | str s => cases h
    | _ => cases hl
  | _ => cases hk.trans hl

theorem same_self {k : Datum} {name : String} (h : k.keyText? = some name) : k.same k = true := by
  cases k with
  | num n =>
    rw [same]
    exact n.same_self
  | bool b =>
    rw [same]
    exact decide_eq_true rfl
  | str s =>
    rw [same]
    exact decide_eq_true rfl
  | _ => cases h

theorem distinctKeys_iff_pairwise {entries : List (Datum × Datum)} :
    distinctKeys entries = true ↔ entries.Pairwise fun e e' => e.1.same e'.1 = false := by
  induction entries with
  | nil => exact iff_of_true rfl .nil
  | cons e entries ih =>
    obtain ⟨k, v⟩ := e
    rw [distinctKeys, Bool.and_eq_true, Bool.not_eq_true', List.any_eq_false, ih,
      List.pairwise_cons]
    simp only [Bool.not_eq_true]

/-- No text among the keys of a mapping spells a number or a truth value among them. -/
def Apart (entries : List (Datum × Datum)) : Prop :=
  ∀ e ∈ entries, ∀ e' ∈ entries, e.1.isText → e.1.keyText? = e'.1.keyText? → e'.1.isText

instance (entries : List (Datum × Datum)) : Decidable (Apart entries) :=
  inferInstanceAs (Decidable (∀ e ∈ entries, ∀ e' ∈ entries,
    e.1.isText → e.1.keyText? = e'.1.keyText? → e'.1.isText))

/-- **The texts of different keys are different if and only if the keys are apart.** -/
theorem nodup_keyTexts_iff_apart {entries : List (Datum × Datum)}
    (h : distinctKeys entries = true) (hnamed : ∀ e ∈ entries, ∃ name, e.1.keyText? = some name) :
    (entries.map (·.1.keyText?)).Nodup ↔ Apart entries := by
  rw [List.Nodup, List.pairwise_map]
  constructor
  · intro hne e he e' he' htext heq
    have hsymm : Std.Symm fun e e' : Datum × Datum => e.1.keyText? ≠ e'.1.keyText? :=
      ⟨fun _ _ => Ne.symm⟩
    by_cases hsame : e = e'
    · exact hsame ▸ htext
    · exact absurd heq (hne.forall he he' hsame)
  · intro hapart
    refine (distinctKeys_iff_pairwise.mp h).imp_of_mem fun {e e'} he he' hsame heq => ?_
    obtain ⟨name, hname⟩ := hnamed e he
    -- keys with one text are the same, unless one of them is a text that spells the other
    have hkey : e.1 = e'.1 := by
      refine eq_of_keyText? hname (heq ▸ hname)
        (Bool.eq_iff_iff.mpr ⟨fun htext => ?_, fun htext => ?_⟩)
      · exact hapart e he e' he' htext heq
      · exact hapart e' he' e he htext heq.symm
    rw [← hkey, same_self hname] at hsame
    cases hsame

/-! ### Values that keep all entries -/

/-- A value that keeps a datum: items keep their number and their order, and a mapping
becomes an object of different names with one field for each entry, in the order of the
entries and with the entry's own value. -/
inductive Mirrors : Datum → Value → Prop
  | null : Mirrors .null .null
  | bool (b : Bool) : Mirrors (.bool b) (.bool b)
  | num {n : Number} {v : Value} : n.toValue = .ok v → Mirrors (.num n) v
  | str (s : String) : Mirrors (.str s) (.str s)
  | seq {items : List Datum} {vs : List Value} : List.Forall₂ Mirrors items vs →
      Mirrors (.seq items) (.arr vs)
  | map {entries : List (Datum × Datum)} {fields : List (String × Value)} :
      (Table.names fields).Nodup → entries.map (·.1.keyText?) = fields.map (some ·.1) →
      List.Forall₂ Mirrors (entries.map Prod.snd) (fields.map Prod.snd) →
      Mirrors (.map entries) (.obj fields)
  | tagged (tag : String) {content : Datum} {v : Value} : Mirrors content v →
      Mirrors (.tagged tag content) v

section Fields

variable {entries : List (Datum × Datum)} {fields : List (String × Value)}
  (hfields : List.Forall₂ (fun e f => e.1.keyText? = some f.1 ∧ e.2.toValue = .ok f.2)
    entries fields)
include hfields

/-- The fields of a mapping have different names if and only if its keys are apart. -/
theorem nodup_names_iff_apart (h : distinctKeys entries = true) :
    (Table.names fields).Nodup ↔ Apart entries := by
  have hnamed : ∀ e ∈ entries, ∃ name, e.1.keyText? = some name := by
    intro e he
    obtain ⟨f, -, hf, -⟩ := exists_mem_right hfields e he
    exact ⟨f.1, hf⟩
  have hnames : fields.map (some ·.1) = (Table.names fields).map some := by
    rw [Table.names, List.map_map]
    rfl
  rw [← nodup_keyTexts_iff_apart h hnamed, keyTexts_of_fields hfields, hnames]
  exact (List.nodup_map_iff (Option.some_injective _)).symm

/-- An object keeps the entries of a mapping if and only if its keys are apart and each
value is kept by the field of its entry. -/
theorem mirrors_ofEntries_iff (h : distinctKeys entries = true) :
    (Datum.map entries).Mirrors (.obj (Table.ofEntries fields)) ↔
      Apart entries ∧ List.Forall₂ (fun e f => e.2.Mirrors f.2) entries fields := by
  have hapart := nodup_names_iff_apart hfields h
  constructor
  · intro hmirrors
    have hvalues : List.Forall₂ (fun e f => e.2.Mirrors f.2) entries (Table.ofEntries fields) := by
      cases hmirrors with
      | map _ _ hvalues =>
        rw [List.forall₂_map_left_iff, List.forall₂_map_right_iff] at hvalues
        exact hvalues
    -- as many fields as entries are left, so that no field was overwritten
    have hnodup : (Table.names fields).Nodup :=
      Table.length_ofEntries_eq_iff.mp (hvalues.length_eq.symm.trans hfields.length_eq)
    rw [Table.ofEntries_of_nodup hnodup] at hvalues
    exact ⟨hapart.mp hnodup, hvalues⟩
  · rintro ⟨hkeys, hvalues⟩
    have hnodup := hapart.mpr hkeys
    rw [Table.ofEntries_of_nodup hnodup]
    refine .map hnodup (keyTexts_of_fields hfields) ?_
    rw [List.forall₂_map_left_iff, List.forall₂_map_right_iff]
    exact hvalues

/-- The last entry whose key has a given text. -/
def lastOf (entries : List (Datum × Datum)) (name : String) : Option (Datum × Datum) :=
  entries.reverse.find? fun e => e.1.keyText? = some name

theorem lookup_of_find? {name : String} {e : Datum × Datum}
    (h : entries.find? (fun e => e.1.keyText? = some name) = some e) :
    ∃ w, e.2.toValue = .ok w ∧ fields.lookup name = some w := by
  induction hfields with
  | nil => cases h
  | @cons e' f entries fields he _ ih =>
    obtain ⟨name', w⟩ := f
    rw [List.find?_cons, he.1] at h
    rw [List.lookup_cons]
    by_cases hname : name = name'
    · subst hname
      rw [decide_eq_true rfl] at h
      obtain rfl : e' = e := Option.some.inj h
      exact ⟨w, he.2, by rw [beq_self_eq_true]⟩
    · rw [decide_eq_false fun heq => hname (Option.some.inj heq).symm] at h
      rw [beq_eq_false_iff_ne.mpr hname]
      exact ih h

end Fields

/-- **What becomes of a mapping**: each text stands where it comes first, with the value of
its last entry, and there are as many fields as entries if and only if the keys are apart. -/
theorem fields_of_entries {entries : List (Datum × Datum)} {v : Value}
    (h : distinctKeys entries = true) (hv : (Datum.map entries).toValue = .ok v) :
    ∃ fields, v = .obj fields ∧
      Table.names fields = (entries.filterMap (·.1.keyText?)).eraseDups ∧
      (∀ name e, lastOf entries name = some e →
        ∃ w, e.2.toValue = .ok w ∧ fields.lookup name = some w) ∧
      (fields.length = entries.length ↔ Apart entries) := by
  obtain ⟨fields, hfields, rfl⟩ := toValue_map_eq_ok_iff.mp hv
  refine ⟨Table.ofEntries fields, rfl, ?_, fun name e he => ?_, ?_⟩
  · have hnames : entries.filterMap (·.1.keyText?) = Table.names fields := by
      have hkeys := congrArg (List.filterMap id) (keyTexts_of_fields hfields)
      rw [List.filterMap_map, List.filterMap_map] at hkeys
      exact hkeys.trans (congrFun List.filterMap_eq_map fields)
    rw [Table.names_ofEntries, hnames]
  · rw [Table.lookup_ofEntries]
    exact lookup_of_find? (List.forall₂_reverse_iff.mpr hfields) he
  · rw [← nodup_names_iff_apart hfields h, ← Table.length_ofEntries_eq_iff, hfields.length_eq]

/-- **A value keeps all entries if and only if the keys of each mapping are apart.** -/
theorem mirrors_iff_apart {d : Datum} (hd : d.Distinct) : ∀ {v}, d.toValue = .ok v →
    (d.Mirrors v ↔ ∀ entries, Within (.map entries) d → Apart entries) := by
  induction d using Datum.induct with
  | null =>
    rintro v ⟨⟩
    exact iff_of_true .null fun entries h => by cases h
  | bool b =>
    rintro v ⟨⟩
    exact iff_of_true (.bool b) fun entries h => by cases h
  | num n => exact fun hv => iff_of_true (.num hv) fun entries h => by cases h
  | str s =>
    rintro v ⟨⟩
    exact iff_of_true (.str s) fun entries h => by cases h
  | seq items ih =>
    intro v hv
    obtain ⟨vs, hvs, rfl⟩ := toValue_seq_eq_ok_iff.mp hv
    have hitems := forall₂_iff_forall_mem hvs fun d hmem v hv =>
      ih d hmem (fun entries h => hd entries (.item hmem h)) hv
    constructor
    · rintro ⟨⟩ entries ⟨⟩
      next hmirrors d h hmem => exact hitems.mp hmirrors d hmem entries h
    · exact fun h => .seq (hitems.mpr fun d hmem entries hwithin => h entries (.item hmem hwithin))
  | map entries ih =>
    intro v hv
    obtain ⟨fields, hfields, rfl⟩ := toValue_map_eq_ok_iff.mp hv
    rw [mirrors_ofEntries_iff hfields (hd entries .self),
      forall₂_iff_forall_mem hfields fun e he f hf =>
        ih e he (fun es h => hd es (.value he h)) hf.2]
    constructor
    · rintro ⟨hapart, hvalues⟩ es (_ | _ | ⟨he, hwithin⟩)
      · exact hapart
      · exact hvalues _ he es hwithin
    · exact fun h => ⟨h entries .self, fun e he es hwithin => h es (.value he hwithin)⟩
  | tagged tag content ih =>
    intro v hv
    have hcontent := ih (fun entries h => hd entries (.content h)) hv
    constructor
    · rintro ⟨⟩ entries ⟨⟩
      next hmirrors h => exact hcontent.mp hmirrors entries h
    · exact fun h => .tagged tag (hcontent.mpr fun entries hwithin => h entries (.content hwithin))

/-- What is reached in a datum is converted with it. -/
theorem toValue_of_within {part d : Datum} (h : Within part d) :
    ∀ {v}, d.toValue = .ok v → ∃ w, part.toValue = .ok w := by
  induction h with
  | self => exact fun hv => ⟨_, hv⟩
  | item hmem _ ih =>
    intro v hv
    obtain ⟨vs, hvs, -⟩ := toValue_seq_eq_ok_iff.mp hv
    obtain ⟨w, -, hw⟩ := exists_mem_right hvs _ hmem
    exact ih hw
  | value hmem _ ih =>
    intro v hv
    obtain ⟨fields, hfields, -⟩ := toValue_map_eq_ok_iff.mp hv
    obtain ⟨f, -, -, hf⟩ := exists_mem_right hfields _ hmem
    exact ih hf
  | content _ ih => exact fun hv => ih hv

/-- **Conversion keeps the entries of mappings whose keys are apart, and loses one of any
other mapping.**  The value has one field for each entry of each mapping, in the order of
the entries and with their own values, if and only if no text among the keys of a mapping
spells a number or a truth value among them.  In every mapping that is reached each text
stands where it comes first, with the value of its last entry. -/
theorem entries_kept_iff {d : Datum} {v : Value} (hd : d.Distinct) (h : d.toValue = .ok v) :
    (d.Mirrors v ↔ ∀ entries, Within (.map entries) d → Apart entries) ∧
    ∀ entries, Within (.map entries) d → ∃ fields, (Datum.map entries).toValue = .ok (.obj fields) ∧
      Table.names fields = (entries.filterMap (·.1.keyText?)).eraseDups ∧
      (∀ name e, lastOf entries name = some e →
        ∃ w, e.2.toValue = .ok w ∧ fields.lookup name = some w) ∧
      (fields.length = entries.length ↔ Apart entries) := by
  refine ⟨mirrors_iff_apart hd h, fun entries hwithin => ?_⟩
  obtain ⟨w, hw⟩ := toValue_of_within hwithin h
  obtain ⟨fields, rfl, hkept⟩ := fields_of_entries (hd entries hwithin) hw
  exact ⟨fields, hw, hkept⟩

/-- A mapping with a truth value and a text that spells a number among its keys, and under
one of them a mapping with that number among its keys. -/
def labelledDatum : Datum :=
  .map [(.bool true, .tagged "x" (.map [(.str "true", .null), (.num (.int 1), .null)])),
    (.str "1", .seq [])]

theorem entries_kept_iff_labelledDatum :
    labelledDatum.Distinct ∧
    labelledDatum.toValue =
      .ok (.obj [("true", .obj [("true", .null), ("1", .null)]), ("1", .arr [])]) ∧
    labelledDatum.Mirrors
      (.obj [("true", .obj [("true", .null), ("1", .null)]), ("1", .arr [])]) := by
  have hmaps : ∀ entries, Within (.map entries) labelledDatum →
      distinctKeys entries = true ∧ Apart entries := by
    intro entries hwithin
    have hspot := (part_mem_spots_iff labelledDatum).mpr hwithin
    simp only [labelledDatum, spots, spotsEntries, spotsItems, List.cons_append, List.nil_append,
      List.append_nil, List.mem_cons, List.not_mem_nil, reduceCtorEq, Spot.part.injEq, map.injEq,
      or_false, false_or] at hspot
    rcases hspot with rfl | rfl
    · decide
    · decide
  have hdistinct : labelledDatum.Distinct := fun entries h => (hmaps entries h).1
  have hvalue : labelledDatum.toValue =
      .ok (.obj [("true", .obj [("true", .null), ("1", .null)]), ("1", .arr [])]) := by decide
  exact ⟨hdistinct, hvalue,
    (entries_kept_iff hdistinct hvalue).1.mpr fun entries h => (hmaps entries h).2⟩

/-- A mapping with a number among its keys, and a text that spells it. -/
def spelledDatum : Datum := .map [(.num (.int 1), .str "a"), (.str "1", .str "b")]

/-- A number and the text that spells it are different keys of a text that is read, and the
value of the number is lost. -/
theorem spelled_key_is_lost :
    (read "1: a\n'1': b\n").bind Content.datum? = some spelledDatum ∧
    spelledDatum.Distinct ∧
    spelledDatum.toValue = .ok (.obj [("1", .str "b")]) ∧
    ¬ spelledDatum.Mirrors (.obj [("1", .str "b")]) := by
  have hread : (read "1: a\n'1': b\n").bind Content.datum? = some spelledDatum := by
    decide +kernel
  have hdistinct : spelledDatum.Distinct := by
    obtain ⟨c, -, hc⟩ := Option.bind_eq_some_iff.mp hread
    exact Content.distinct_of_datum? hc
  refine ⟨hread, hdistinct, by decide, fun h => ?_⟩
  cases h with
  | map _ hkeys _ => exact absurd (congrArg List.length hkeys) (by decide)

end Datum

/-- **A document keeps its entries if and only if the keys of each mapping are apart.**
That they are different is seen to when it is read. -/
theorem loadDocument_mirrors_iff {name text : String} {d : Datum} {v : Value}
    (hyaml : isYaml name = true) (hread : (read text).bind Content.datum? = some d)
    (h : loadDocument name (some text) = .ok v) :
    d.Mirrors v ↔ ∀ entries, Datum.Within (.map entries) d → Datum.Apart entries := by
  have hdistinct : d.Distinct := by
    obtain ⟨c, -, hc⟩ := Option.bind_eq_some_iff.mp hread
    exact Content.distinct_of_datum? hc
  have hvalue : d.toValue = .ok v := by
    rw [loadDocument, if_pos hyaml, hread] at h
    change d.toValue.mapError (DocumentError.unrepresentable name) = .ok v at h
    cases hconvert : d.toValue with
    | error e =>
      rw [hconvert] at h
      cases h
    | ok w =>
      rw [hconvert] at h
      exact congrArg Except.ok (Except.ok.inj h)
  exact Datum.mirrors_iff_apart hdistinct hvalue

end TerseSchema.Yaml
