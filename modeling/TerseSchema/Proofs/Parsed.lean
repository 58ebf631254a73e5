import TerseSchema.Document
import TerseSchema.Proofs.Representable

/-!
# What a text can stand for

Conversion is given data that were read from a text, and reading leaves some data out: a
plain text is an integer only if 64 bits hold it, and a mapping with the same key twice is
no content at all.  Both hold of every part of what is read, since reading goes through
content as conversion goes through data.

## Main definitions

* `Datum.Simple` — what texts stand for.
* `Datum.Distinct` — the keys of each mapping are different.

## Main results

* `Content.of_datum?` — induction over what content stands for.
* `Content.fits_of_datum?`, `Content.distinct_of_datum?` — **what reading guarantees.**
* `loadDocument_ne_unsupported` — no document is at fault for the kind of a number.
-/

namespace TerseSchema.Yaml

/-! ### What a text stands for -/

/-- A float is no integer. -/
theorem Number.fits_of_float? {text : String} {n : Number} (h : float? text = some n) : n.Fits := by
  rintro z rfl
  rw [float?] at h
  split at h
  · cases h
  · split at h
    · cases h
    · split at h
      · cases h
      · split at h
        · split at h
          · obtain ⟨x, -, hx⟩ := Option.map_eq_some_iff.mp h
            cases hx
          · cases h
        · cases h

/-- What a plain text stands for is no number, or one of a kind that there is. -/
def Scalar.Fits (scalar : Scalar) : Prop := ∀ n, scalar = .num n → n.Fits

theorem Scalar.fits_of_ofInteger? {z : Int} {otherwise : Option Scalar} {scalar : Scalar}
    (hotherwise : ∀ s ∈ otherwise, s.Fits) (h : ofInteger? z otherwise = some scalar) :
    scalar.Fits := by
  rw [ofInteger?] at h
  split at h
  · next hfits =>
    rintro n rfl z' rfl
    obtain rfl : z = z' := Number.int.inj (Scalar.num.inj (Option.some.inj h))
    simpa [fits64] using hfits
  · split at h
    · cases h
    · exact hotherwise scalar h

theorem Scalar.fits_ofFloat (text : String) : (ofFloat text).Fits := by
  rintro n h
  rw [ofFloat] at h
  split at h
  · cases h
  · split at h
    · next x hx =>
      cases h
      exact Number.fits_of_float? hx
    · cases h

theorem Scalar.fits_of_ofPlain? {text : String} {scalar : Scalar}
    (h : ofPlain? text = some scalar) : scalar.Fits := by
  rw [ofPlain?] at h
  split at h
  · cases h
    exact nofun
  · split at h
    · cases h
      exact nofun
    · split at h
      · exact fits_of_ofInteger? (fun s hs => Option.some.inj hs ▸ fits_ofFloat text) h
      · exact Option.some.inj h ▸ fits_ofFloat text

namespace Datum

/-- What texts stand for: a scalar, with tags of one's own perhaps. -/
inductive Simple : Datum → Prop
  | scalar (scalar : Scalar) : scalar.Fits → Simple scalar.datum
  | tagged (tag : String) {d : Datum} : Simple d → Simple (.tagged tag d)

theorem Simple.text (text : String) : Simple (.str text) :=
  .scalar (.str text) nofun

theorem simple_of_untagged? {style : Style} {text : String} {d : Datum}
    (h : untagged? style text = some d) : d.Simple := by
  rw [untagged?] at h
  split at h
  · obtain ⟨scalar, hscalar, rfl⟩ := Option.map_eq_some_iff.mp h
    exact .scalar _ (Scalar.fits_of_ofPlain? hscalar)
  · exact Option.some.inj h ▸ .text text

theorem simple_of_tagged? {tag : Tag} {style : Style} {text : String} {d : Datum}
    (h : tagged? tag style text = some d) : d.Simple := by
  rw [tagged?] at h
  split at h
  · obtain ⟨d', hd', rfl⟩ := Option.map_eq_some_iff.mp h
    have hsimple := simple_of_untagged? hd'
    cases tag.own? with
    | none => exact hsimple
    | some name => exact .tagged name hsimple
  · split at h
    · split at h
      · exact Option.some.inj h ▸ .scalar .null nofun
      · cases h
    · split at h
      · obtain ⟨b, -, rfl⟩ := Option.map_eq_some_iff.mp h
        exact .scalar (.bool b) nofun
      · split at h
        · obtain ⟨scalar, hscalar, rfl⟩ := Option.map_eq_some_iff.mp h
          obtain ⟨z, -, hz⟩ := Option.bind_eq_some_iff.mp hscalar
          exact .scalar _ (Scalar.fits_of_ofInteger? (by simp) hz)
        · split at h
          · obtain ⟨m, hm, rfl⟩ := Option.map_eq_some_iff.mp h
            refine .scalar (.num m) ?_
            rintro n ⟨⟩
            exact Number.fits_of_float? hm
          · exact Option.some.inj h ▸ .text text

theorem simple_of_textDatum? {tag : Option Tag} {style : Style} {text : String} {d : Datum}
    (h : textDatum? tag style text = some d) : d.Simple := by
  cases tag with
  | none => exact simple_of_untagged? h
  | some tag => exact simple_of_tagged? h

end Datum

/-! ### What content stands for -/

namespace Content

/-- Induction over content: a sequence may assume the statement of its items, and a mapping
of its values. -/
theorem induct {motive : Content → Prop} (text : ∀ tag style value, motive (.text tag style value))
    (sequence : ∀ tag items, (∀ c ∈ items, motive c) → motive (.sequence tag items))
    (mapping : ∀ tag entries, (∀ e ∈ entries, motive e.2) → motive (.mapping tag entries)) :
    ∀ c, motive c :=
  @Content.rec motive (fun items => ∀ c ∈ items, motive c)
    (fun entries => ∀ e ∈ entries, motive e.2) (fun e => motive e.2) text sequence mapping
    (List.forall_mem_nil _)
    (fun _ _ hc hcs => List.forall_mem_cons.mpr ⟨hc, hcs⟩) (List.forall_mem_nil _)
    (fun _ _ he hes => List.forall_mem_cons.mpr ⟨he, hes⟩) (fun _ _ _ hv => hv)

theorem forall_mem_of_datumItems? {p : Datum → Prop} {items : List Content}
    (h : ∀ c ∈ items, ∀ {d}, c.datum? = some d → p d) :
    ∀ {ds}, datumItems? items = some ds → ∀ d ∈ ds, p d := by
  induction items with
  | nil =>
    rintro ds ⟨⟩
    exact List.forall_mem_nil _
  | cons c items ih =>
    intro ds hds
    obtain ⟨d, hd, hmore⟩ := Option.bind_eq_some_iff.mp hds
    obtain ⟨more, hitems, rfl⟩ := Option.map_eq_some_iff.mp hmore
    exact List.forall_mem_cons.mpr ⟨h c List.mem_cons_self hd,
      ih (fun c hc => h c (List.mem_cons_of_mem _ hc)) hitems⟩

theorem forall_mem_of_datumEntries? {p : Datum → Prop} {entries : List (Content × Content)}
    (h : ∀ e ∈ entries, ∀ {d}, e.2.datum? = some d → p d) :
    ∀ {es}, datumEntries? entries = some es → ∀ e ∈ es, p e.2 := by
  induction entries with
  | nil =>
    rintro es ⟨⟩
    exact List.forall_mem_nil _
  | cons e entries ih =>
    intro es hes
    obtain ⟨k, -, hmore⟩ := Option.bind_eq_some_iff.mp hes
    obtain ⟨v, hv, hmore⟩ := Option.bind_eq_some_iff.mp hmore
    obtain ⟨more, hentries, rfl⟩ := Option.map_eq_some_iff.mp hmore
    exact List.forall_mem_cons.mpr ⟨h e List.mem_cons_self hv,
      ih (fun e he => h e (List.mem_cons_of_mem _ he)) hentries⟩

/-- **Induction over what content stands for.** -/
theorem of_datum? {motive : Datum → Prop} (simple : ∀ d, d.Simple → motive d)
    (seq : ∀ items, (∀ d ∈ items, motive d) → motive (.seq items))
    (map : ∀ entries, Datum.distinctKeys entries = true → (∀ e ∈ entries, motive e.2) →
      motive (.map entries))
    (tagged : ∀ tag d, motive d → motive (.tagged tag d)) {c : Content} :
    ∀ {d}, c.datum? = some d → motive d := by
  have hwith : ∀ (tag : Option Tag) (d : Datum), motive d → motive (withTag tag d) := by
    intro tag d hd
    rw [withTag]
    split
    · exact tagged _ d hd
    · exact hd
  induction c using Content.induct with
  | text tag style value => exact fun h => simple _ (Datum.simple_of_textDatum? h)
  | sequence tag items ih =>
    intro d h
    obtain ⟨ds, hds, rfl⟩ := Option.map_eq_some_iff.mp h
    exact hwith tag _ (seq ds (forall_mem_of_datumItems? ih hds))
  | mapping tag entries ih =>
    intro d h
    obtain ⟨es, hes, h⟩ := Option.bind_eq_some_iff.mp h
    split at h
    · next hdistinct =>
      exact Option.some.inj h ▸ hwith tag _ (map es hdistinct (forall_mem_of_datumEntries? ih hes))
    · cases h

end Content

/-! ### What reading guarantees -/

namespace Datum

/-- The keys of each mapping that is reached are different. -/
def Distinct (d : Datum) : Prop :=
  ∀ entries, Within (.map entries) d → distinctKeys entries = true

theorem Simple.fits {d : Datum} (h : d.Simple) : d.Fits := by
  induction h with
  | scalar scalar hscalar =>
    intro n hn
    cases scalar with
    | num m =>
      cases hn
      exact hscalar _ rfl
    | null | bool _ | str _ => cases hn
  | tagged tag _ ih =>
    rintro n (_ | _ | _ | hn)
    exact ih n hn

theorem Simple.distinct {d : Datum} (h : d.Simple) : d.Distinct := by
  induction h with
  | scalar scalar _ =>
    intro entries hentries
    cases scalar <;> cases hentries
  | tagged tag _ ih =>
    rintro entries (_ | _ | _ | hentries)
    exact ih entries hentries

end Datum

/-- **No text stands for a number without a kind.** -/
theorem Content.fits_of_datum? {c : Content} {d : Datum} (h : c.datum? = some d) : d.Fits := by
  refine of_datum? (fun d hd => hd.fits) ?_ ?_ ?_ h
  · rintro items ih n (_ | ⟨hd, hn⟩)
    exact ih _ hd n hn
  · rintro entries - ih n (_ | _ | ⟨he, hn⟩)
    exact ih _ he n hn
  · rintro tag d ih n (_ | _ | _ | hn)
    exact ih n hn

/-- **No text stands for a mapping with the same key twice.** -/
theorem Content.distinct_of_datum? {c : Content} {d : Datum} (h : c.datum? = some d) :
    d.Distinct := by
  refine of_datum? (fun d hd => hd.distinct) ?_ ?_ ?_ h
  · rintro items ih entries (_ | ⟨hd, hwithin⟩)
    exact ih _ hd entries hwithin
  · rintro entries hdistinct ih entries' (_ | _ | ⟨he, hwithin⟩)
    · exact hdistinct
    · exact ih _ he entries' hwithin
  · rintro tag d ih entries (_ | _ | _ | hwithin)
    exact ih entries hwithin

/-- **No document leads to a number without a kind.** -/
theorem loadDocument_ne_unsupported (name name' : String) (text : Option String) (n : Number) :
    loadDocument name text ≠ .error (.unrepresentable name' (.unsupported n)) := by
  intro h
  cases text with
  | none => cases h
  | some text =>
    rw [loadDocument] at h
    split at h
    · split at h
      · cases h
      · next datum hdatum =>
        obtain ⟨c, -, hc⟩ := Option.bind_eq_some_iff.mp hdatum
        cases hvalue : datum.toValue with
        | ok v =>
          rw [hvalue] at h
          cases h
        | error e =>
          rw [hvalue] at h
          cases h
          exact Datum.toValue_ne_unsupported (Content.fits_of_datum? hc) n hvalue
    · split at h <;> cases h

end TerseSchema.Yaml
