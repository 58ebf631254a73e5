import TerseSchema.Proofs.Table
import TerseSchema.Yaml.Datum

/-!
# Data that documents can hold

A document holds no infinity, and the keys of its objects are texts.  Conversion goes
through a datum in the order of the document and stops where something has no counterpart:
at a float that is not finite, or at a key that has no text.  Everything that conversion
looks at is listed here as a spot, in the order in which it is looked at; the first spot
with a fault is the answer, and without one the datum keeps all but its tags.

## Main definitions

* `Datum.Within` — the parts that conversion reaches.
* `Datum.Faulty` — the parts that have no document value.
* `Spot`, `Datum.spots` — what conversion looks at, in the order of the document.
* `Datum.Renders` — the document value of a datum, said without conversion.

## Main results

* `Datum.toValue_ends` — conversion stops at the first spot with a fault.
* `Datum.renders_of_toValue` — where it succeeds, the value renders the datum.
* `Datum.representable_iff` — **conversion fails exactly on unrepresentable parts.**
-/

namespace TerseSchema.Yaml

/-! ### Parts -/

namespace Datum

/-- Induction over data: a sequence may assume the statement of its items, a mapping of
its values, and a datum with a tag of its content. -/
theorem induct {motive : Datum → Prop} (null : motive .null) (bool : ∀ b, motive (.bool b))
    (num : ∀ n, motive (.num n)) (str : ∀ s, motive (.str s))
    (seq : ∀ items, (∀ d ∈ items, motive d) → motive (.seq items))
    (map : ∀ entries, (∀ e ∈ entries, motive e.2) → motive (.map entries))
    (tagged : ∀ tag content, motive content → motive (.tagged tag content)) : ∀ d, motive d :=
  @Datum.rec motive (fun items => ∀ d ∈ items, motive d) (fun entries => ∀ e ∈ entries, motive e.2)
    (fun e => motive e.2) null bool num str seq map tagged (List.forall_mem_nil _)
    (fun _ _ hd hds => List.forall_mem_cons.mpr ⟨hd, hds⟩) (List.forall_mem_nil _)
    (fun _ _ he hes => List.forall_mem_cons.mpr ⟨he, hes⟩) (fun _ _ _ hv => hv)

/-- A part is reached through items of sequences, values of mappings, and tags. -/
inductive Within (part : Datum) : Datum → Prop
  | self : Within part part
  | item {items : List Datum} {d : Datum} : d ∈ items → Within part d → Within part (.seq items)
  | value {entries : List (Datum × Datum)} {e : Datum × Datum} : e ∈ entries →
      Within part e.2 → Within part (.map entries)
  | content {tag : String} {d : Datum} : Within part d → Within part (.tagged tag d)

end Datum

/-- A number is of one of the kinds that there are: an integer of 64 bits, signed or
unsigned, or a double. -/
def Number.Fits (n : Number) : Prop :=
  ∀ z, n = .int z → -(pow2 63 : Int) ≤ z ∧ z < (pow2 64 : Int)

namespace Datum

/-- Every number that is reached is of one of the kinds that there are. -/
def Fits (d : Datum) : Prop := ∀ n, Within (.num n) d → n.Fits

/-- A key that stands for no name. -/
inductive Nameless : Datum → Prop
  | null : Nameless .null
  | seq (items : List Datum) : Nameless (.seq items)
  | map (entries : List (Datum × Datum)) : Nameless (.map entries)
  | tagged (tag : String) (content : Datum) : Nameless (.tagged tag content)

/-- A part that no document holds: a float that is not finite, or a mapping with a key that
stands for no name. -/
inductive Faulty : Datum → Prop
  | infinite (negative : Bool) : Faulty (.num (.infinite negative))
  | nan : Faulty (.num .nan)
  | key {entries : List (Datum × Datum)} {e : Datum × Datum} : e ∈ entries → e.1.Nameless →
      Faulty (.map entries)

theorem keyText?_eq_none_iff {k : Datum} : k.keyText? = none ↔ k.Nameless := by
  cases k with
  | null => exact iff_of_true rfl .null
  | bool b => exact iff_of_false (fun h => by cases h) fun h => by cases h
  | num n => exact iff_of_false (fun h => by cases h) fun h => by cases h
  | str s => exact iff_of_false (fun h => by cases h) fun h => by cases h
  | seq items => exact iff_of_true rfl (.seq items)
  | map entries => exact iff_of_true rfl (.map entries)
  | tagged tag content => exact iff_of_true rfl (.tagged tag content)

end Datum

/-! ### The order of the document -/

/-- What conversion looks at: a part, or the key of an entry. -/
inductive Spot where
  | part (d : Datum)
  | key (k : Datum)

namespace Datum

mutual

/-- What conversion looks at, in the order of the document. -/
def spots : Datum → List Spot
  | .null => [.part .null]
  | .bool b => [.part (.bool b)]
  | .num n => [.part (.num n)]
  | .str s => [.part (.str s)]
  | .seq items => .part (.seq items) :: spotsItems items
  | .map entries => .part (.map entries) :: spotsEntries entries
  | .tagged tag content => .part (.tagged tag content) :: content.spots

/-- What conversion looks at among items. -/
def spotsItems : List Datum → List Spot
  | [] => []
  | d :: items => d.spots ++ spotsItems items

/-- What conversion looks at among entries: of each the key, and then the value. -/
def spotsEntries : List (Datum × Datum) → List Spot
  | [] => []
  | (k, v) :: entries => .key k :: (v.spots ++ spotsEntries entries)

end

theorem spotsItems_eq_flatMap (items : List Datum) : spotsItems items = items.flatMap spots := by
  induction items with
  | nil => rfl
  | cons d items ih => rw [spotsItems, ih, List.flatMap_cons]

theorem spotsEntries_eq_flatMap (entries : List (Datum × Datum)) :
    spotsEntries entries = entries.flatMap fun e => .key e.1 :: e.2.spots := by
  induction entries with
  | nil => rfl
  | cons e entries ih => rw [spotsEntries, ih, List.flatMap_cons, List.cons_append]

/-- **The parts among the spots are those that are reached.** -/
theorem part_mem_spots_iff {part : Datum} (d : Datum) :
    .part part ∈ d.spots ↔ Within part d := by
  induction d using Datum.induct with
  | null | bool _ | num _ | str _ =>
    rw [spots, List.mem_singleton, Spot.part.injEq]
    constructor
    · rintro rfl
      exact .self
    · rintro ⟨⟩
      rfl
  | seq items ih =>
    rw [spots, spotsItems_eq_flatMap, List.mem_cons, List.mem_flatMap, Spot.part.injEq]
    constructor
    · rintro (rfl | ⟨d, hd, h⟩)
      · exact .self
      · exact .item hd ((ih d hd).mp h)
    · rintro (_ | ⟨hd, h⟩)
      · exact .inl rfl
      · exact .inr ⟨_, hd, (ih _ hd).mpr h⟩
  | map entries ih =>
    rw [spots, spotsEntries_eq_flatMap, List.mem_cons, List.mem_flatMap, Spot.part.injEq]
    constructor
    · rintro (rfl | ⟨e, he, h⟩)
      · exact .self
      · exact .value he ((ih e he).mp (List.mem_of_ne_of_mem Spot.noConfusion h))
    · rintro (_ | _ | ⟨he, h⟩)
      · exact .inl rfl
      · exact .inr ⟨_, he, List.mem_cons_of_mem _ ((ih _ he).mpr h)⟩
  | tagged tag content ih =>
    rw [spots, List.mem_cons, Spot.part.injEq, ih]
    constructor
    · rintro (rfl | h)
      · exact .self
      · exact .content h
    · rintro (_ | _ | _ | h)
      · exact .inl rfl
      · exact .inr h

/-- **The keys among the spots are those of the mappings that are reached.** -/
theorem key_mem_spots_iff {k : Datum} (d : Datum) :
    .key k ∈ d.spots ↔ ∃ entries, Within (.map entries) d ∧ ∃ e ∈ entries, e.1 = k := by
  induction d using Datum.induct with
  | null | bool _ | num _ | str _ =>
    rw [spots, List.mem_singleton]
    refine iff_of_false Spot.noConfusion ?_
    rintro ⟨entries, ⟨⟩, -⟩
  | seq items ih =>
    rw [spots, spotsItems_eq_flatMap, List.mem_cons, List.mem_flatMap]
    constructor
    · rintro (h | ⟨d, hd, h⟩)
      · cases h
      · obtain ⟨entries, hwithin, he⟩ := (ih d hd).mp h
        exact ⟨entries, .item hd hwithin, he⟩
    · rintro ⟨entries, _ | ⟨hd, hwithin⟩, he⟩
      exact .inr ⟨_, hd, (ih _ hd).mpr ⟨entries, hwithin, he⟩⟩
  | map entries ih =>
    rw [spots, spotsEntries_eq_flatMap, List.mem_cons, List.mem_flatMap]
    constructor
    · rintro (h | ⟨e, he, h⟩)
      · cases h
      · rcases List.mem_cons.mp h with h | h
        · exact ⟨entries, .self, e, he, (Spot.key.inj h).symm⟩
        · obtain ⟨entries', hwithin, he'⟩ := (ih e he).mp h
          exact ⟨entries', .value he hwithin, he'⟩
    · rintro ⟨entries', hwithin, he'⟩
      cases hwithin with
      | self =>
        obtain ⟨e, he, rfl⟩ := he'
        exact .inr ⟨e, he, List.mem_cons_self⟩
      | value he hwithin =>
        exact .inr ⟨_, he, List.mem_cons_of_mem _ ((ih _ he).mpr ⟨entries', hwithin, he'⟩)⟩
  | tagged tag content ih =>
    rw [spots, List.mem_cons, ih]
    constructor
    · rintro (h | ⟨entries, hwithin, he⟩)
      · cases h
      · exact ⟨entries, .content hwithin, he⟩
    · rintro ⟨entries, _ | _ | _ | hwithin, he⟩
      exact .inr ⟨entries, hwithin, he⟩

end Datum

/-- The fault of a spot by itself. -/
def Spot.fault? : Spot → Option Unrepresentable
  | .part (.num (.infinite negative)) => some (.notFinite (.infinite negative))
  | .part (.num .nan) => some (.notFinite .nan)
  | .key .null => some (.badKey .null)
  | .key (.seq items) => some (.badKey (.seq items))
  | .key (.map entries) => some (.badKey (.map entries))
  | .key (.tagged tag content) => some (.badKey (.tagged tag content))
  | _ => none

/-- A key is at fault if it has no text. -/
theorem Spot.fault?_key (k : Datum) :
    (Spot.key k).fault? = if k.keyText? = none then some (.badKey k) else none := by
  cases k <;> rfl

/-! ### Where conversion stops -/

/-- A conversion that looks at spots stops at the first one with a fault. -/
def Ends {α : Type} (spots : List Spot) (x : Except Unrepresentable α) : Prop :=
  ∀ e, x = .error e ↔ spots.findSome? Spot.fault? = some e

section
variable {α β : Type} {spots spots' : List Spot} {x : Except Unrepresentable α}

theorem ends_ok (h : spots.findSome? Spot.fault? = none) (a : α) : Ends spots (.ok a) := by
  intro e
  rw [h]
  exact iff_of_false (fun h => by cases h) fun h => by cases h

theorem ends_error {e : Unrepresentable} (h : spots.findSome? Spot.fault? = some e) :
    Ends spots (.error e : Except Unrepresentable α) := by
  intro e'
  rw [h, Except.error.injEq, Option.some.injEq]

theorem Ends.map (h : Ends spots x) (f : α → β) : Ends spots (x.map f) := by
  intro e
  rw [← h e]
  cases x with
  | error e' => rw [Except.map, Except.error.injEq, Except.error.injEq]
  | ok a => exact iff_of_false (fun h => by cases h) fun h => by cases h

/-- One conversion after another. -/
theorem Ends.bind {f : α → Except Unrepresentable β} (h : Ends spots x)
    (hf : ∀ a, x = .ok a → Ends spots' (f a)) : Ends (spots ++ spots') (x.bind f) := by
  cases x with
  | error e =>
    refine ends_error ?_
    rw [List.findSome?_append, (h e).mp rfl, Option.some_or]
  | ok a =>
    have hnone : spots.findSome? Spot.fault? = none := by
      cases hsome : spots.findSome? Spot.fault? with
      | none => rfl
      | some e => cases (h e).mpr hsome
    intro e
    rw [List.findSome?_append, hnone, Option.none_or]
    exact hf a rfl e

/-- A spot without a fault is passed. -/
theorem Ends.cons (h : Ends spots x) {spot : Spot} (hspot : spot.fault? = none) :
    Ends (spot :: spots) x := by
  intro e
  rw [List.findSome?_cons, hspot]
  exact h e

end

/-- An integer of 64 bits is kept, whether it is read as signed or as unsigned. -/
theorem Number.toValue_int {z : Int} (h : (Number.int z).Fits) :
    (Number.int z).toValue = .ok (.int z) := by
  obtain ⟨hlow, hhigh⟩ := h z rfl
  by_cases hsigned : -(pow2 63 : Int) ≤ z ∧ z < pow2 63
  · rw [toValue, signed?, if_pos hsigned]
  · have hunsigned : 0 ≤ z ∧ z < pow2 64 := by
      rw [not_and, Int.not_lt] at hsigned
      exact ⟨Int.le_trans (Int.natCast_nonneg _) (hsigned hlow), hhigh⟩
    rw [toValue, signed?, if_neg hsigned, unsigned?, if_pos hunsigned]

/-- A number stops conversion if it is a float that is not finite. -/
theorem Number.toValue_ends {n : Number} (h : n.Fits) : Ends [.part (.num n)] n.toValue := by
  cases n with
  | int z =>
    rw [Number.toValue_int h]
    exact ends_ok rfl _
  | float x => exact ends_ok rfl _
  | infinite negative => exact ends_error rfl
  | nan => exact ends_error rfl

namespace Datum

/-- **Conversion stops at the first spot with a fault**, and only there. -/
theorem toValue_ends {d : Datum} (h : d.Fits) : Ends d.spots d.toValue := by
  induction d using Datum.induct with
  | null | bool _ | str _ => exact ends_ok rfl _
  | num n => exact Number.toValue_ends (h n .self)
  | seq items ih =>
    rw [spots, toValue]
    refine (Ends.map ?_ _).cons rfl
    have hitems : ∀ d ∈ items, Ends d.spots d.toValue :=
      fun d hd => ih d hd fun n hn => h n (.item hd hn)
    clear ih h
    induction items with
    | nil => exact ends_ok rfl _
    | cons d items ihitems =>
      obtain ⟨hd, hrest⟩ := List.forall_mem_cons.mp hitems
      exact hd.bind fun v _ => (ihitems hrest).map _
  | map entries ih =>
    rw [spots, toValue]
    refine (Ends.map ?_ _).cons rfl
    have hentries : ∀ e ∈ entries, Ends e.2.spots e.2.toValue :=
      fun e he => ih e he fun n hn => h n (.value he hn)
    clear ih h
    induction entries with
    | nil => exact ends_ok rfl _
    | cons e entries ihentries =>
      obtain ⟨he, hrest⟩ := List.forall_mem_cons.mp hentries
      obtain ⟨k, v⟩ := e
      rw [spotsEntries, toFields]
      -- the key is looked at before the value
      cases hk : k.keyText? with
      | none => exact ends_error (by rw [List.findSome?_cons, Spot.fault?_key, if_pos hk])
      | some name =>
        have hkey : (Spot.key k).fault? = none := by
          rw [Spot.fault?_key, hk]
          exact if_neg nofun
        exact (he.bind fun v _ => (ihentries hrest).map _).cons hkey
  | tagged tag content ih =>
    rw [spots, toValue]
    exact (ih fun n hn => h n (.content hn)).cons rfl

/-! ### What is kept -/

theorem toItems_eq_mapM (items : List Datum) : toItems items = items.mapM toValue := by
  induction items with
  | nil => rfl
  | cons d items ih =>
    rw [toItems, ih, List.mapM_cons]
    cases d.toValue with
    | error e => rfl
    | ok v => cases items.mapM toValue <;> rfl

/-- The field of an entry. -/
def toField (e : Datum × Datum) : Except Unrepresentable (String × Value) :=
  match e.1.keyText? with
  | none => .error (.badKey e.1)
  | some name => e.2.toValue.map (name, ·)

theorem toField_eq_ok_iff {e : Datum × Datum} {f : String × Value} :
    toField e = .ok f ↔ e.1.keyText? = some f.1 ∧ e.2.toValue = .ok f.2 := by
  rw [toField]
  cases e.1.keyText? with
  | none => exact iff_of_false (fun h => by cases h) fun h => by cases h.1
  | some name =>
    cases e.2.toValue with
    | error e => exact iff_of_false (fun h => by cases h) fun h => by cases h.2
    | ok v =>
      show Except.ok (name, v) = .ok f ↔ _
      rw [Except.ok.injEq, Option.some.injEq, Except.ok.injEq, Prod.ext_iff]

theorem toFields_eq_mapM (entries : List (Datum × Datum)) :
    toFields entries = entries.mapM toField := by
  induction entries with
  | nil => rfl
  | cons e entries ih =>
    obtain ⟨k, v⟩ := e
    rw [toFields, ih, List.mapM_cons, toField]
    cases k.keyText? with
    | none => rfl
    | some name =>
      cases v.toValue with
      | error e => rfl
      | ok w => cases entries.mapM toField <;> rfl

/-- A sequence is converted item by item. -/
theorem toValue_seq_eq_ok_iff {items : List Datum} {v : Value} :
    (Datum.seq items).toValue = .ok v ↔
      ∃ vs, List.Forall₂ (fun d v => d.toValue = .ok v) items vs ∧ v = .arr vs := by
  rw [toValue, toItems_eq_mapM]
  constructor
  · intro h
    cases hvs : items.mapM toValue with
    | error e =>
      rw [hvs] at h
      cases h
    | ok vs =>
      rw [hvs] at h
      exact ⟨vs, mapM_eq_ok_iff.mp hvs, (Except.ok.inj h).symm⟩
  · rintro ⟨vs, hvs, rfl⟩
    rw [mapM_eq_ok_iff.mpr hvs]
    rfl

/-- A mapping is converted entry by entry, and then the fields are made an object. -/
theorem toValue_map_eq_ok_iff {entries : List (Datum × Datum)} {v : Value} :
    (Datum.map entries).toValue = .ok v ↔
      ∃ fields, List.Forall₂ (fun e f => e.1.keyText? = some f.1 ∧ e.2.toValue = .ok f.2)
        entries fields ∧ v = .obj (Table.ofEntries fields) := by
  simp only [← toField_eq_ok_iff]
  rw [toValue, toFields_eq_mapM]
  constructor
  · intro h
    cases hfields : entries.mapM toField with
    | error e =>
      rw [hfields] at h
      cases h
    | ok fields =>
      rw [hfields] at h
      exact ⟨fields, mapM_eq_ok_iff.mp hfields, (Except.ok.inj h).symm⟩
  · rintro ⟨fields, hfields, rfl⟩
    rw [mapM_eq_ok_iff.mpr hfields]
    rfl

/-- Each field has the text of its own key. -/
theorem keyTexts_of_fields {entries : List (Datum × Datum)} {fields : List (String × Value)}
    (h : List.Forall₂ (fun e f => e.1.keyText? = some f.1 ∧ e.2.toValue = .ok f.2) entries fields) :
    entries.map (·.1.keyText?) = fields.map (some ·.1) := by
  refine List.forall₂_eq_eq_eq ▸ ?_
  rw [List.forall₂_map_left_iff, List.forall₂_map_right_iff]
  exact h.imp fun e f he => he.1

/-- The document value of a datum: tags are dropped, items keep their number and their
order, the fields of an object are written one after the other, and all else is kept. -/
inductive Renders : Datum → Value → Prop
  | null : Renders .null .null
  | bool (b : Bool) : Renders (.bool b) (.bool b)
  | int {z : Int} : -(pow2 63 : Int) ≤ z → z < (pow2 64 : Int) → Renders (.num (.int z)) (.int z)
  | float (x : Double) : Renders (.num (.float x)) (.float x)
  | str (s : String) : Renders (.str s) (.str s)
  | seq {items : List Datum} {vs : List Value} : List.Forall₂ Renders items vs →
      Renders (.seq items) (.arr vs)
  | map {entries : List (Datum × Datum)} {fields : List (String × Value)} :
      entries.map (·.1.keyText?) = fields.map (some ·.1) →
      List.Forall₂ Renders (entries.map Prod.snd) (fields.map Prod.snd) →
      Renders (.map entries) (.obj (Table.ofEntries fields))
  | tagged (tag : String) {content : Datum} {v : Value} : Renders content v →
      Renders (.tagged tag content) v

/-- **Where conversion succeeds, the value renders the datum.** -/
theorem renders_of_toValue {d : Datum} (h : d.Fits) : ∀ {v}, d.toValue = .ok v → d.Renders v := by
  induction d using Datum.induct with
  | null =>
    rintro v ⟨⟩
    exact .null
  | bool b =>
    rintro v ⟨⟩
    exact .bool b
  | num n =>
    intro v hv
    cases n with
    | int z =>
      obtain ⟨hlow, hhigh⟩ := h _ .self z rfl
      rw [toValue, Number.toValue_int (h _ .self)] at hv
      cases hv
      exact .int hlow hhigh
    | float x =>
      cases hv
      exact .float x
    | infinite negative => cases hv
    | nan => cases hv
  | str s =>
    rintro v ⟨⟩
    exact .str s
  | seq items ih =>
    intro v hv
    obtain ⟨vs, hvs, rfl⟩ := toValue_seq_eq_ok_iff.mp hv
    refine .seq ((forall₂_and_mem hvs).imp ?_)
    rintro d w ⟨hd, -, hw⟩
    exact ih d hd (fun n hn => h n (.item hd hn)) hw
  | map entries ih =>
    intro v hv
    obtain ⟨fields, hfields, rfl⟩ := toValue_map_eq_ok_iff.mp hv
    refine .map (keyTexts_of_fields hfields) ?_
    rw [List.forall₂_map_left_iff, List.forall₂_map_right_iff]
    refine (forall₂_and_mem hfields).imp ?_
    rintro e f ⟨he, -, -, hw⟩
    exact ih e he (fun n hn => h n (.value he hn)) hw
  | tagged tag content ih => exact fun hv => .tagged tag (ih (fun n hn => h n (.content hn)) hv)

end Datum

/-! ### Unrepresentable parts -/

/-- A spot is at fault as a float that is not finite, or as a key that stands for no
name. -/
theorem Spot.fault?_eq_some_iff {spot : Spot} {e : Unrepresentable} : spot.fault? = some e ↔
    (∃ n, spot = .part (.num n) ∧ (n = .nan ∨ ∃ negative, n = .infinite negative) ∧
      e = .notFinite n) ∨ ∃ k, spot = .key k ∧ k.Nameless ∧ e = .badKey k := by
  cases spot with
  | part d =>
    constructor
    · intro h
      cases d with
      | num n =>
        cases n with
        | infinite negative => exact .inl ⟨_, rfl, .inr ⟨_, rfl⟩, (Option.some.inj h).symm⟩
        | nan => exact .inl ⟨_, rfl, .inl rfl, (Option.some.inj h).symm⟩
        | _ => cases h
      | _ => cases h
    · rintro (⟨n, hspot, rfl | ⟨negative, rfl⟩, rfl⟩ | ⟨k, hspot, -⟩)
      · cases hspot
        rfl
      · cases hspot
        rfl
      · cases hspot
  | key k =>
    rw [Spot.fault?_key]
    constructor
    · intro h
      split at h
      · next hk => exact .inr ⟨k, rfl, Datum.keyText?_eq_none_iff.mp hk, (Option.some.inj h).symm⟩
      · cases h
    · rintro (⟨n, hspot, -⟩ | ⟨k', hspot, hk, rfl⟩)
      · cases hspot
      · cases hspot
        rw [if_pos (Datum.keyText?_eq_none_iff.mpr hk)]

namespace Datum

/-- The fault of a part is that of the spot where it stands, or of a key in it. -/
theorem exists_fault_iff (d : Datum) : (∃ spot ∈ d.spots, ∃ e, spot.fault? = some e) ↔
    ∃ part, Within part d ∧ part.Faulty := by
  simp only [Spot.fault?_eq_some_iff]
  constructor
  · rintro ⟨_, hspot, e, ⟨n, rfl, hn, -⟩ | ⟨k, rfl, hk, -⟩⟩
    · refine ⟨.num n, (part_mem_spots_iff d).mp hspot, ?_⟩
      rcases hn with rfl | ⟨negative, rfl⟩
      · exact .nan
      · exact .infinite negative
    · obtain ⟨entries, hwithin, e, he, rfl⟩ := (key_mem_spots_iff d).mp hspot
      exact ⟨.map entries, hwithin, .key he hk⟩
  · rintro ⟨part, hwithin, hfaulty⟩
    cases hfaulty with
    | infinite negative =>
      exact ⟨_, (part_mem_spots_iff d).mpr hwithin, _, .inl ⟨_, rfl, .inr ⟨_, rfl⟩, rfl⟩⟩
    | nan => exact ⟨_, (part_mem_spots_iff d).mpr hwithin, _, .inl ⟨_, rfl, .inl rfl, rfl⟩⟩
    | @key entries e he hk =>
      exact ⟨_, (key_mem_spots_iff d).mpr ⟨entries, hwithin, e, he, rfl⟩, _, .inr ⟨_, rfl, hk, rfl⟩⟩

/-- No number is at fault for its kind. -/
theorem toValue_ne_unsupported {d : Datum} (h : d.Fits) (n : Number) :
    d.toValue ≠ .error (.unsupported n) := by
  intro hn
  obtain ⟨spot, -, hfault⟩ := List.exists_of_findSome?_eq_some ((toValue_ends h _).mp hn)
  rcases Spot.fault?_eq_some_iff.mp hfault with ⟨m, -, -, he⟩ | ⟨k, -, -, he⟩
  · cases he
  · cases he

/-- **Conversion fails exactly on unrepresentable parts.**  It fails if a float that is not
finite, or a key that stands for no name, is reached through items, values and tags, and
the first one in the document is at fault; a number is never at fault for its kind.  Where
it succeeds, tags are dropped and the rest is kept. -/
theorem representable_iff {d : Datum} (h : d.Fits) :
    ((∃ e, d.toValue = .error e) ↔ ∃ part, Within part d ∧ part.Faulty) ∧
    (∀ e, d.toValue = .error e ↔ ∃ before spot after, d.spots = before ++ spot :: after ∧
      spot.fault? = some e ∧ ∀ earlier ∈ before, earlier.fault? = none) ∧
    (∀ n, d.toValue ≠ .error (.unsupported n)) ∧
    ∀ v, d.toValue = .ok v → d.Renders v := by
  have hends := toValue_ends h
  refine ⟨?_, fun e => (hends e).trans List.findSome?_eq_some_iff, toValue_ne_unsupported h,
    fun v hv => renders_of_toValue h hv⟩
  rw [← exists_fault_iff]
  constructor
  · rintro ⟨e, he⟩
    obtain ⟨spot, hspot, hfault⟩ := List.exists_of_findSome?_eq_some ((hends e).mp he)
    exact ⟨spot, hspot, e, hfault⟩
  · rintro ⟨spot, hspot, e, hfault⟩
    have hsome : (d.spots.findSome? Spot.fault?).isSome :=
      List.findSome?_isSome_iff.mpr ⟨spot, hspot, by rw [hfault, Option.isSome_some]⟩
    obtain ⟨e', he'⟩ := Option.isSome_iff_exists.mp hsome
    exact ⟨e', (hends e').mpr he'⟩

/-- A mapping with a sequence, in which a tagged float is no number, and a key that is
absent behind it. -/
def oddDatum : Datum :=
  .map [(.str "a", .seq [.num (.int 18446744073709551615), .tagged "x" (.num .nan)]),
    (.null, .bool true)]

theorem representable_iff_oddDatum : oddDatum.Fits ∧
    oddDatum.toValue = .error (.notFinite .nan) := by
  have hfits : oddDatum.Fits := by
    rintro n hn z rfl
    have hspot := (part_mem_spots_iff oddDatum).mpr hn
    have hz : z = 18446744073709551615 := by
      simpa [oddDatum, spots, spotsEntries, spotsItems] using hspot
    rw [hz]
    exact ⟨by decide, by decide⟩
  refine ⟨hfits, ((representable_iff hfits).2.1 _).mpr ?_⟩
  refine ⟨[.part oddDatum, .key (.str "a"), .part (.seq _), .part (.num (.int _)),
    .part (.tagged "x" _)], .part (.num .nan), [.key .null, .part (.bool true)], rfl, rfl, ?_⟩
  simp only [List.forall_mem_cons]
  exact ⟨rfl, rfl, rfl, rfl, rfl, List.forall_mem_nil _⟩

end Datum

end TerseSchema.Yaml
