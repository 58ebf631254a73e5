import Mathlib.Data.List.TakeDrop
import Mathlib.Data.List.TakeWhile
import TerseSchema.Number.Prefix

/-!
# The numbers at the head of a text

A decimal number is written as an optional sign, digits with an optional fraction or a
fraction alone, and an optional exponent.  A text may begin with several such numbers, one
longer than the other; the scanner takes the longest one, and finds none only if there is
none.  The integer at the head of a text is a sign and all digits that follow it.

## Main definitions

* `ExponentText.WellFormed`, `DecimalText.WellFormed` — exponents and decimal numbers as
  they may be written.
* `DecimalText.IsLongest` — the longest decimal number at the head of a text.
* `LeadingInteger` — the integer at the head of a text.

## Main results

* `DecimalText.WellFormed.exists_scan` — behind a decimal number the scanner goes on, but
  never back.
* `DecimalText.scan_eq_some_iff`, `DecimalText.scan_eq_none_iff` — **the scanner takes the
  longest decimal number.**
* `scanInteger_eq_some_iff`, `scanInteger_eq_none_iff` — an integer is read up to its last
  digit.
-/

namespace TerseSchema

/-! ### Signs and digits -/

theorem splitDigits_eq (text : List Char) :
    splitDigits text = (text.takeWhile Char.isDigit, text.dropWhile Char.isDigit) :=
  List.span_eq_takeWhile_dropWhile _ _

/-- Digits in front of a text are split off together with those at its head. -/
theorem splitDigits_append_of_forall {digits : List Char} (h : ∀ c ∈ digits, c.isDigit)
    (rest : List Char) : splitDigits (digits ++ rest) =
      (digits ++ rest.takeWhile Char.isDigit, rest.dropWhile Char.isDigit) := by
  rw [splitDigits_eq, List.takeWhile_append_of_pos h, List.dropWhile_append_of_pos h]

/-- Digits are split off up to the first other character. -/
theorem splitDigits_append {digits rest : List Char} (h : ∀ c ∈ digits, c.isDigit)
    (hrest : ∀ c ∈ rest.head?, c.isDigit = false) :
    splitDigits (digits ++ rest) = (digits, rest) := by
  rw [splitDigits_append_of_forall h]
  cases rest with
  | nil => rw [List.takeWhile_nil, List.dropWhile_nil, List.append_nil]
  | cons c rest =>
    have hc : ¬ c.isDigit = true := by
      rw [hrest c rfl]
      exact Bool.false_ne_true
    rw [List.takeWhile_cons_of_neg hc, List.dropWhile_cons_of_neg hc, List.append_nil]

/-- What is split off are digits, and no digit follows. -/
theorem splitDigits_spec (text : List Char) :
    text = (splitDigits text).1 ++ (splitDigits text).2 ∧
      (∀ c ∈ (splitDigits text).1, c.isDigit) ∧
      ∀ c ∈ (splitDigits text).2.head?, c.isDigit = false := by
  rw [splitDigits_eq]
  refine ⟨(List.takeWhile_append_dropWhile).symm, ?_, ?_⟩
  · intro c hc
    exact List.mem_takeWhile_imp hc
  · intro c hc
    have hhead := List.head?_dropWhile_not Char.isDigit text
    rw [Option.mem_def.mp hc] at hhead
    simpa using hhead

/-- A sign is split off in front of what does not begin with one. -/
theorem splitSign_append_of_head {sign rest : List Char} (hsign : sign ∈ [[], ['+'], ['-']])
    (hrest : ∀ c ∈ rest.head?, c ≠ '+' ∧ c ≠ '-') : splitSign (sign ++ rest) = (sign, rest) := by
  simp only [List.mem_cons, List.not_mem_nil, or_false] at hsign
  rcases hsign with rfl | rfl | rfl
  · rw [List.nil_append]
    unfold splitSign
    split
    · exact absurd rfl (hrest '+' rfl).1
    · exact absurd rfl (hrest '-' rfl).2
    · rfl
  · rfl
  · rfl

theorem ne_sign_of_isDigit {c : Char} (h : c.isDigit) : c ≠ '+' ∧ c ≠ '-' := by
  constructor
  · rintro rfl
    exact absurd h (by decide)
  · rintro rfl
    exact absurd h (by decide)

theorem splitSign_append {sign digits : List Char} (rest : List Char)
    (hsign : sign ∈ [[], ['+'], ['-']]) (hne : digits ≠ []) (h : ∀ c ∈ digits, c.isDigit) :
    splitSign (sign ++ (digits ++ rest)) = (sign, digits ++ rest) := by
  obtain ⟨c, digits, rfl⟩ := List.exists_cons_of_ne_nil hne
  apply splitSign_append_of_head hsign
  rintro _ ⟨⟩
  exact ne_sign_of_isDigit (h c List.mem_cons_self)

/-- What is split off is a sign, or nothing. -/
theorem splitSign_spec (text : List Char) :
    text = (splitSign text).1 ++ (splitSign text).2 ∧
      (splitSign text).1 ∈ [[], ['+'], ['-']] := by
  unfold splitSign
  split <;> simp

/-! ### Exponents -/

/-- An exponent as it may be written. -/
structure ExponentText.WellFormed (e : ExponentText) : Prop where
  mark : e.mark = 'e' ∨ e.mark = 'E'
  sign : e.sign ∈ [[], ['+'], ['-']]
  ne_nil : e.digits ≠ []
  digits : ∀ c ∈ e.digits, c.isDigit

namespace ExponentText

variable {e : ExponentText}

/-- Behind an exponent the scanner goes on with digits only. -/
theorem WellFormed.scan_append (h : e.WellFormed) (rest : List Char) :
    scan (e.chars ++ rest) =
      some { e with digits := e.digits ++ rest.takeWhile Char.isDigit } := by
  obtain ⟨mark, sign, digits⟩ := e
  obtain ⟨hmark, hsign, hne, hdigits⟩ := h
  have hne' : (digits ++ rest.takeWhile Char.isDigit).isEmpty = false := by
    rw [List.isEmpty_eq_false_iff]
    exact List.append_ne_nil_of_left_ne_nil hne _
  show scan (mark :: (sign ++ digits ++ rest)) = _
  rw [scan, if_pos hmark, List.append_assoc, splitSign_append rest hsign hne hdigits]
  simp only [splitDigits_append_of_forall hdigits, hne']
  rfl

/-- What the scanner takes is an exponent at the head of the text. -/
theorem wellFormed_of_scan {text : List Char} (h : scan text = some e) :
    e.WellFormed ∧ e.chars <+: text := by
  cases text with
  | nil => cases h
  | cons mark text =>
    obtain ⟨htext, hsign⟩ := splitSign_spec text
    obtain ⟨hrest, hdigits, -⟩ := splitDigits_spec (splitSign text).2
    rw [scan] at h
    split at h
    · next hmark =>
      dsimp only at h
      split at h
      · cases h
      · next hne =>
        obtain rfl := Option.some.inj h
        refine ⟨⟨hmark, hsign, by simpa using hne, hdigits⟩, (splitDigits (splitSign text).2).2, ?_⟩
        show mark :: ((splitSign text).1 ++ (splitDigits (splitSign text).2).1 ++ _) = _
        rw [List.append_assoc, ← hrest, ← htext]
    · cases h

/-- The text of an exponent that is there or not. -/
theorem scan_spec (text : List Char) :
    (∀ e ∈ scan text, e.WellFormed) ∧ ((scan text).map chars).getD [] <+: text := by
  cases h : scan text with
  | none => exact ⟨nofun, List.nil_prefix⟩
  | some e =>
    obtain ⟨he, hbegins⟩ := wellFormed_of_scan h
    refine ⟨?_, hbegins⟩
    rintro _ ⟨⟩
    exact he

/-- The mark of an exponent is no digit and no point. -/
theorem WellFormed.mark_ne (h : e.WellFormed) : e.mark.isDigit = false ∧ e.mark ≠ '.' := by
  rcases h.mark with hmark | hmark
  · rw [hmark]
    decide
  · rw [hmark]
    decide

/-- Behind digits and perhaps an exponent, the scanner goes on with digits only; it takes
no less than the exponent, and just it if nothing follows. -/
theorem exists_behind {exponent : Option ExponentText} (h : ∀ e ∈ exponent, e.WellFormed)
    {digits : List Char} (hdigits : ∀ c ∈ digits, c.isDigit) (rest : List Char) : ∃ more tail,
    splitDigits (digits ++ ((exponent.map chars).getD [] ++ rest)) = (digits ++ more, tail) ∧
      ((exponent.map chars).getD []).length ≤ (((scan tail).map chars).getD []).length ∧
      (rest = [] → more = [] ∧ tail = (exponent.map chars).getD [] ∧ scan tail = exponent) := by
  cases exponent with
  | none =>
    refine ⟨_, _, splitDigits_append_of_forall hdigits rest, Nat.zero_le _, ?_⟩
    rintro rfl
    exact ⟨rfl, rfl, rfl⟩
  | some e =>
    -- the mark of the exponent ends the digits in front of it
    have he := h e rfl
    have hhead : ∀ c ∈ (e.chars ++ rest).head?, c.isDigit = false := by
      rintro _ ⟨⟩
      exact he.mark_ne.1
    have hscan := he.scan_append rest
    refine ⟨[], e.chars ++ rest, ?_, ?_, ?_⟩
    · rw [List.append_nil]
      exact splitDigits_append hdigits hhead
    · rw [hscan]
      simp [chars]
    · rintro rfl
      refine ⟨rfl, List.append_nil _, ?_⟩
      simpa using hscan

end ExponentText

/-! ### Decimal numbers -/

/-- A decimal number as it may be written: with a digit before or behind the point. -/
structure DecimalText.WellFormed (t : DecimalText) : Prop where
  sign : t.sign ∈ [[], ['+'], ['-']]
  whole : ∀ c ∈ t.whole, c.isDigit
  fraction : ∀ digits ∈ t.fraction, ∀ c ∈ digits, c.isDigit
  ne_nil : t.whole ++ t.fraction.getD [] ≠ []
  exponent : ∀ e ∈ t.exponent, e.WellFormed

namespace DecimalText

variable {t : DecimalText} {text : List Char}

/-- The longest decimal number at the head of a text. -/
structure IsLongest (t : DecimalText) (text : List Char) : Prop where
  wellFormed : t.WellFormed
  begins : t.chars <+: text
  longest : ∀ u : DecimalText, u.WellFormed → u.chars <+: text → u.chars.length ≤ t.chars.length

/-- What the scanner takes is a decimal number at the head of the text. -/
theorem wellFormed_of_scan (h : scan text = some t) : t.WellFormed ∧ t.chars <+: text := by
  obtain ⟨htext, hsign⟩ := splitSign_spec text
  obtain ⟨hrest, hwhole, -⟩ := splitDigits_spec (splitSign text).2
  unfold scan at h
  generalize splitSign text = signed at *
  obtain ⟨sign, rest⟩ := signed
  dsimp only at *
  generalize splitDigits rest = parts at *
  obtain ⟨whole, behind⟩ := parts
  dsimp only at *
  subst htext hrest
  split at h
  · next behind =>
    obtain ⟨hbehind, hfraction, -⟩ := splitDigits_spec behind
    generalize splitDigits behind = parts at *
    obtain ⟨fraction, tail⟩ := parts
    dsimp only at *
    subst hbehind
    split at h
    · cases h
    · next hne =>
      obtain rfl := Option.some.inj h
      obtain ⟨hexponent, more, hmore⟩ := ExponentText.scan_spec tail
      refine ⟨⟨hsign, hwhole, ?_, ?_, hexponent⟩, more, ?_⟩
      · rintro _ ⟨⟩
        exact hfraction
      · simpa using hne
      · simp [chars, hmore]
  · split at h
    · cases h
    · next hne =>
      obtain rfl := Option.some.inj h
      obtain ⟨hexponent, more, hmore⟩ := ExponentText.scan_spec behind
      refine ⟨⟨hsign, hwhole, nofun, ?_, hexponent⟩, more, ?_⟩
      · simpa using hne
      · simp [chars, hmore]

/-- A number with a point. -/
theorem scan_of_point {sign whole fraction rest behind tail : List Char}
    (hsign : splitSign text = (sign, rest)) (hwhole : splitDigits rest = (whole, '.' :: behind))
    (hfraction : splitDigits behind = (fraction, tail)) (hne : whole ++ fraction ≠ []) :
    scan text = some ⟨sign, whole, some fraction, ExponentText.scan tail⟩ := by
  have hsome : ¬ (whole.isEmpty && fraction.isEmpty) = true := by
    simpa [List.append_eq_nil_iff] using hne
  unfold scan
  simp only [hsign, hwhole, hfraction]
  exact if_neg hsome

/-- A number without a point. -/
theorem scan_of_head {sign whole rest tail : List Char} (hsign : splitSign text = (sign, rest))
    (hwhole : splitDigits rest = (whole, tail)) (hpoint : ∀ c ∈ tail.head?, c ≠ '.')
    (hne : whole ≠ []) : scan text = some ⟨sign, whole, none, ExponentText.scan tail⟩ := by
  have hsome : ¬ whole.isEmpty = true := by simpa using hne
  unfold scan
  simp only [hsign, hwhole]
  split
  · exact absurd rfl (hpoint '.' rfl)
  · exact if_neg hsome

/-- The sign is split off in front of the digits and the point. -/
theorem WellFormed.splitSign_append (h : t.WellFormed) (rest : List Char) :
    splitSign (t.sign ++ (t.whole ++ ((t.fraction.map ('.' :: ·)).getD [] ++ rest))) =
      (t.sign, t.whole ++ ((t.fraction.map ('.' :: ·)).getD [] ++ rest)) := by
  obtain ⟨sign, whole, fraction, exponent⟩ := t
  apply splitSign_append_of_head h.sign
  cases whole with
  | cons c whole =>
    rintro _ ⟨⟩
    exact ne_sign_of_isDigit (h.whole c List.mem_cons_self)
  | nil =>
    cases fraction with
    | none => exact absurd rfl h.ne_nil
    | some digits =>
      rintro _ ⟨⟩
      decide

/-- **Behind a decimal number the scanner goes on, but never back**, and it stops there if
nothing follows. -/
theorem WellFormed.exists_scan (h : t.WellFormed) (rest : List Char) : ∃ u,
    scan (t.chars ++ rest) = some u ∧ t.chars.length ≤ u.chars.length ∧
      (rest = [] → u = t) := by
  have hsign := h.splitSign_append ((t.exponent.map ExponentText.chars).getD [] ++ rest)
  have hne := h.ne_nil
  unfold chars
  rw [List.append_assoc, List.append_assoc, List.append_assoc]
  obtain ⟨sign, whole, fraction, exponent⟩ := t
  obtain ⟨-, hwhole, hfraction, -, hexponent⟩ := h
  dsimp only at *
  cases fraction with
  | some digits =>
    -- only digits can be added to the fraction, or an exponent behind it
    obtain ⟨more, tail, hsplit, hle, hend⟩ :=
      ExponentText.exists_behind hexponent (hfraction digits rfl) rest
    have hhead : ∀ c ∈ ('.' :: (digits ++ ((exponent.map ExponentText.chars).getD [] ++
        rest))).head?, c.isDigit = false := by
      rintro _ ⟨⟩
      rfl
    have hpoint := splitDigits_append hwhole hhead
    have hne' : whole ++ (digits ++ more) ≠ [] := by
      rw [← List.append_assoc]
      exact List.append_ne_nil_of_left_ne_nil hne _
    refine ⟨_, scan_of_point hsign hpoint hsplit hne', ?_, ?_⟩
    · simp
      omega
    · intro hrest
      obtain ⟨rfl, -, hscan⟩ := hend hrest
      rw [hscan, List.append_nil]
  | none =>
    obtain ⟨more, tail, hsplit, hle, hend⟩ := ExponentText.exists_behind hexponent hwhole rest
    have hne' : whole ++ more ≠ [] := by
      rw [Option.getD_none, List.append_nil] at hne
      exact List.append_ne_nil_of_left_ne_nil hne _
    by_cases hpoint : tail.head? = some '.'
    · -- the number goes on with a point, so that it had no exponent
      obtain ⟨behind, rfl⟩ := List.head?_eq_some_iff.mp hpoint
      have hscan : ExponentText.scan ('.' :: behind) = none := rfl
      rw [hscan] at hle
      have hnone := Nat.le_zero.mp hle
      refine ⟨_, scan_of_point hsign hsplit (splitDigits_eq behind)
        (List.append_ne_nil_of_left_ne_nil hne' _), ?_, ?_⟩
      · simp [hnone]
      · intro hrest
        obtain ⟨-, htail, -⟩ := hend hrest
        cases exponent with
        | none => cases htail
        | some e => exact absurd (List.cons.inj htail).1.symm (hexponent e rfl).mark_ne.2
    · have hhead : ∀ c ∈ tail.head?, c ≠ '.' := by
        rintro _ hc rfl
        exact hpoint hc
      refine ⟨_, scan_of_head hsign hsplit hhead hne', ?_, ?_⟩
      · simp
        omega
      · intro hrest
        obtain ⟨rfl, -, hscan⟩ := hend hrest
        rw [hscan, List.append_nil]

/-- **A decimal number is read off its text.** -/
theorem WellFormed.scan_chars (h : t.WellFormed) : scan t.chars = some t := by
  obtain ⟨u, hscan, -, hend⟩ := h.exists_scan []
  rw [List.append_nil, hend rfl] at hscan
  exact hscan

/-- A decimal number is written in one way. -/
theorem WellFormed.eq_of_chars {u : DecimalText} (ht : t.WellFormed) (hu : u.WellFormed)
    (h : t.chars = u.chars) : t = u := by
  have hscan := ht.scan_chars
  rw [h, hu.scan_chars] at hscan
  exact (Option.some.inj hscan).symm

/-- What the scanner takes is the longest decimal number. -/
theorem isLongest_of_scan (h : scan text = some t) : t.IsLongest text := by
  obtain ⟨ht, hbegins⟩ := wellFormed_of_scan h
  refine ⟨ht, hbegins, ?_⟩
  rintro u hu ⟨rest, rfl⟩
  obtain ⟨v, hscan, hle, -⟩ := hu.exists_scan rest
  rw [h] at hscan
  obtain rfl := Option.some.inj hscan
  exact hle

/-- There is one longest decimal number at the head of a text. -/
theorem IsLongest.unique {u : DecimalText} (ht : t.IsLongest text) (hu : u.IsLongest text) :
    t = u := by
  apply ht.wellFormed.eq_of_chars hu.wellFormed
  have hlength := Nat.le_antisymm (hu.longest t ht.wellFormed ht.begins)
    (ht.longest u hu.wellFormed hu.begins)
  exact (List.prefix_of_prefix_length_le ht.begins hu.begins hlength.le).eq_of_length hlength

/-- **The scanner finds nothing only if the text begins with no decimal number.** -/
theorem scan_eq_none_iff :
    scan text = none ↔ ¬ ∃ t : DecimalText, t.WellFormed ∧ t.chars <+: text := by
  constructor
  · rintro h ⟨t, ht, rest, rfl⟩
    obtain ⟨u, hscan, -⟩ := ht.exists_scan rest
    rw [h] at hscan
    cases hscan
  · intro h
    cases hscan : scan text with
    | none => rfl
    | some t => exact absurd ⟨t, wellFormed_of_scan hscan⟩ h

/-- **The scanner takes the longest decimal number** that the text begins with. -/
theorem scan_eq_some_iff : scan text = some t ↔ t.IsLongest text := by
  constructor
  · exact isLongest_of_scan
  · intro h
    cases hscan : scan text with
    | none => exact absurd ⟨t, h.wellFormed, h.begins⟩ (scan_eq_none_iff.mp hscan)
    | some u => rw [(isLongest_of_scan hscan).unique h]

end DecimalText

/-! ### Integers -/

/-- The integer at the head of a text: a sign or none, and all digits that follow it. -/
structure LeadingInteger (text sign digits : List Char) : Prop where
  isSign : sign ∈ [[], ['+'], ['-']]
  ne_nil : digits ≠ []
  isDigits : ∀ c ∈ digits, c.isDigit
  ends : ∃ rest, text = sign ++ (digits ++ rest) ∧ ∀ c ∈ rest.head?, c.isDigit = false

/-- An integer is read up to its last digit. -/
theorem scanInteger_eq_some_iff {text digits : List Char} {negative : Bool} :
    scanInteger text = some (negative, digits) ↔
      ∃ sign, LeadingInteger (trimStart text) sign digits ∧ negative = decide (sign = ['-']) := by
  constructor
  · intro h
    obtain ⟨htext, hsign⟩ := splitSign_spec (trimStart text)
    obtain ⟨hrest, hdigits, hend⟩ := splitDigits_spec (splitSign (trimStart text)).2
    unfold scanInteger at h
    dsimp only at h
    split at h
    · cases h
    · next hne =>
      obtain ⟨rfl, rfl⟩ := Prod.mk.inj (Option.some.inj h)
      refine ⟨_, ⟨hsign, by simpa using hne, hdigits, _, ?_, hend⟩, rfl⟩
      rw [← hrest, ← htext]
  · rintro ⟨sign, ⟨hsign, hne, hdigits, rest, htext, hend⟩, rfl⟩
    have hsome : ¬ digits.isEmpty = true := by simpa using hne
    unfold scanInteger
    rw [htext, splitSign_append rest hsign hne hdigits]
    simp only [splitDigits_append hdigits hend]
    exact if_neg hsome

theorem scanInteger_eq_none_iff {text : List Char} : scanInteger text = none ↔
    ¬ ∃ sign digits, LeadingInteger (trimStart text) sign digits := by
  rw [Option.eq_none_iff_forall_not_mem]
  constructor
  · rintro h ⟨sign, digits, hleading⟩
    exact h _ (scanInteger_eq_some_iff.mpr ⟨sign, hleading, rfl⟩)
  · rintro h ⟨negative, digits⟩ hscan
    obtain ⟨sign, hleading, -⟩ := scanInteger_eq_some_iff.mp hscan
    exact h ⟨sign, digits, hleading⟩

end TerseSchema
