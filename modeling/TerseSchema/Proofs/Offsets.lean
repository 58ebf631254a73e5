import TerseSchema.Proofs.Draft
import TerseSchema.Proofs.Numerals
import TerseSchema.Types.Primitive

/-!
# The numbers at the head of a text, by offsets

A scanner that works on the bytes of a text keeps an offset, looks at single bytes, cuts the
bytes off in front of an offset to count the digits there, and in the end cuts the text.  Each
cut could go wrong, behind the end or inside a character.  None does, whatever the text is: the
offset only ever moves over characters of ASCII, and no byte of any other character can be
taken for one.  What is cut out is the longest decimal number in front.

## Main definitions

* `IsDecimal` — the decimal numbers, as texts.
* `utf8`, `bytesFrom`, `textUpTo` — the bytes of a text, and the two kinds of cuts.
* `numberEnd`, `numberPrefix` — the scanner by offsets, which fails if a cut does.
* `OnAt` — how a text goes on behind characters of ASCII.

## Main results

* `isDecimal_iff` — the decimal numbers are what the pieces of one are joined to.
* `textUpTo_eq_some_iff` — a text can be cut between its characters.
* `numberEnd_eq` — the scanner by offsets ends where the scanner of pieces does.
* `number_prefix_is_longest` — **the longest decimal number is handed over, and no cut fails.**
-/

namespace TerseSchema

/-! ### Decimal numbers as texts -/

/-- The mantissas: `digits (. digits*)? | . digits`. -/
inductive IsMantissa : List Char → Prop
  | whole {digits : List Char} : IsNumber digits → IsMantissa digits
  | point {digits fraction : List Char} : IsNumber digits → (∀ c ∈ fraction, c.isDigit) →
      IsMantissa (digits ++ '.' :: fraction)
  | fraction {digits : List Char} : IsNumber digits → IsMantissa ('.' :: digits)

/-- The exponents, or nothing: `((e | E) sign? digits)?`. -/
inductive IsExponent : List Char → Prop
  | none : IsExponent []
  | some {mark : Char} {sign digits : List Char} : mark = 'e' ∨ mark = 'E' →
      sign ∈ [[], ['+'], ['-']] → IsNumber digits → IsExponent (mark :: (sign ++ digits))

/-- A decimal number: a sign or none, a mantissa, and an exponent or none. -/
def IsDecimal (text : List Char) : Prop :=
  ∃ sign mantissa exponent, text = sign ++ (mantissa ++ exponent) ∧
    sign ∈ [[], ['+'], ['-']] ∧ IsMantissa mantissa ∧ IsExponent exponent

theorem isMantissa_iff {text : List Char} : IsMantissa text ↔
    ∃ (whole : List Char) (fraction : Option (List Char)), (∀ c ∈ whole, c.isDigit) ∧
      (∀ digits ∈ fraction, ∀ c ∈ digits, c.isDigit) ∧ whole ++ fraction.getD [] ≠ [] ∧
      text = whole ++ (fraction.map ('.' :: ·)).getD [] := by
  constructor
  · rintro (⟨hne, hdigits⟩ | ⟨⟨hne, hdigits⟩, hfraction⟩ | ⟨hne, hdigits⟩)
    · exact ⟨_, none, hdigits, nofun, by simpa using hne, (List.append_nil _).symm⟩
    · refine ⟨_, some _, hdigits, ?_, List.append_ne_nil_of_left_ne_nil hne _, rfl⟩
      rintro _ ⟨⟩
      exact hfraction
    · refine ⟨[], some _, nofun, ?_, hne, rfl⟩
      rintro _ ⟨⟩
      exact hdigits
  · rintro ⟨whole, fraction | fraction, hwhole, hfraction, hne, rfl⟩
    · rw [Option.getD_none, List.append_nil] at hne
      exact (List.append_nil whole).symm ▸ .whole ⟨hne, hwhole⟩
    · cases whole with
      | nil => exact .fraction ⟨hne, hfraction fraction rfl⟩
      | cons c whole => exact .point ⟨List.cons_ne_nil c whole, hwhole⟩ (hfraction fraction rfl)

theorem isExponent_iff {text : List Char} : IsExponent text ↔
    ∃ exponent : Option ExponentText, (∀ e ∈ exponent, e.WellFormed) ∧
      text = (exponent.map ExponentText.chars).getD [] := by
  constructor
  · rintro (- | @⟨mark, sign, digits, hmark, hsign, hne, hdigits⟩)
    · exact ⟨none, nofun, rfl⟩
    · refine ⟨some ⟨mark, sign, digits⟩, ?_, rfl⟩
      rintro _ ⟨⟩
      exact ⟨hmark, hsign, hne, hdigits⟩
  · rintro ⟨exponent | ⟨mark, sign, digits⟩, hexponent, rfl⟩
    · exact .none
    · obtain ⟨hmark, hsign, hne, hdigits⟩ := hexponent _ rfl
      exact .some hmark hsign ⟨hne, hdigits⟩

/-- **A text is a decimal number exactly if the pieces of one are joined to it.** -/
theorem isDecimal_iff {text : List Char} :
    IsDecimal text ↔ ∃ t : DecimalText, t.WellFormed ∧ t.chars = text := by
  constructor
  · rintro ⟨sign, mantissa, exponent, rfl, hsign, hmantissa, hexponent⟩
    obtain ⟨whole, fraction, hwhole, hfraction, hne, rfl⟩ := isMantissa_iff.mp hmantissa
    obtain ⟨exponent, hparts, rfl⟩ := isExponent_iff.mp hexponent
    refine ⟨⟨sign, whole, fraction, exponent⟩, ⟨hsign, hwhole, hfraction, hne, hparts⟩, ?_⟩
    rw [DecimalText.chars, List.append_assoc sign, List.append_assoc]
  · rintro ⟨⟨sign, whole, fraction, exponent⟩, ⟨hsign, hwhole, hfraction, hne, hexponent⟩, rfl⟩
    refine ⟨sign, _, _, ?_, hsign, isMantissa_iff.mpr ⟨_, _, hwhole, hfraction, hne, rfl⟩,
      isExponent_iff.mpr ⟨_, hexponent, rfl⟩⟩
    rw [DecimalText.chars, List.append_assoc sign, List.append_assoc]

/-! ### Bytes -/

/-- The bytes of a text in UTF-8. -/
def utf8 (text : List Char) : List UInt8 := text.flatMap String.utf8EncodeChar

/-- The byte of a character of ASCII. -/
def asciiByte (c : Char) : UInt8 := UInt8.ofNat c.toNat

/-- Whether a byte is that of a digit. -/
def isDigitByte (b : UInt8) : Bool := asciiByte '0' ≤ b && b ≤ asciiByte '9'

/-- All characters are of ASCII. -/
def IsAscii (text : List Char) : Prop := ∀ c ∈ text, c.toNat < 128

theorem utf8_cons (c : Char) (text : List Char) :
    utf8 (c :: text) = String.utf8EncodeChar c ++ utf8 text := List.flatMap_cons

theorem utf8_append (front rest : List Char) : utf8 (front ++ rest) = utf8 front ++ utf8 rest :=
  List.flatMap_append

/-- A character of ASCII is one byte, and the first byte of any other is none of these. -/
theorem exists_utf8EncodeChar (c : Char) : ∃ b bs, String.utf8EncodeChar c = b :: bs ∧
    (c.toNat < 128 ∧ b.toNat = c.toNat ∧ bs = [] ∨ 128 ≤ c.toNat ∧ 128 ≤ b.toNat) := by
  have hval : c.val.toNat = c.toNat := rfl
  unfold String.utf8EncodeChar
  simp only [hval]
  split
  · refine ⟨_, _, rfl, .inl ⟨by omega, ?_, rfl⟩⟩
    rw [UInt8.toNat_ofNat']
    omega
  · split
    · refine ⟨_, _, rfl, .inr ⟨by omega, ?_⟩⟩
      rw [UInt8.toNat_ofNat']
      omega
    · split
      · refine ⟨_, _, rfl, .inr ⟨by omega, ?_⟩⟩
        rw [UInt8.toNat_ofNat']
        omega
      · refine ⟨_, _, rfl, .inr ⟨by omega, ?_⟩⟩
        rw [UInt8.toNat_ofNat']
        omega

theorem toNat_asciiByte {c : Char} (h : c.toNat < 128) : (asciiByte c).toNat = c.toNat := by
  rw [asciiByte, UInt8.toNat_ofNat']
  omega

/-- A text begins with a character of ASCII exactly if its bytes begin with that of it. -/
theorem head?_utf8_eq_iff {c : Char} (h : c.toNat < 128) (text : List Char) :
    (utf8 text).head? = some (asciiByte c) ↔ text.head? = some c := by
  cases text with
  | nil => exact iff_of_false nofun nofun
  | cons d text =>
    obtain ⟨b, bs, hencode, hb⟩ := exists_utf8EncodeChar d
    rw [utf8_cons, hencode, List.cons_append, List.head?_cons, List.head?_cons, Option.some.injEq,
      Option.some.injEq, ← UInt8.toNat_inj, toNat_asciiByte h, ← Char.toNat_inj]
    omega

theorem isDigitByte_iff {b : UInt8} :
    isDigitByte b = true ↔ '0'.toNat ≤ b.toNat ∧ b.toNat ≤ '9'.toNat := by
  rw [isDigitByte, Bool.and_eq_true, decide_eq_true_iff, decide_eq_true_iff, UInt8.le_iff_toNat_le,
    UInt8.le_iff_toNat_le, toNat_asciiByte (by decide), toNat_asciiByte (by decide)]

/-- The digits in front of a text are the digits in front of its bytes. -/
theorem length_takeWhile_utf8 (text : List Char) :
    ((utf8 text).takeWhile isDigitByte).length = (splitDigits text).1.length := by
  have hnine : '9'.toNat < 128 := by decide
  rw [splitDigits_eq]
  induction text with
  | nil => rfl
  | cons c text ih =>
    obtain ⟨b, bs, hencode, hb⟩ := exists_utf8EncodeChar c
    rw [utf8_cons, hencode, List.cons_append]
    by_cases hc : c.isDigit = true
    · have hrange := Char.isDigit_iff_toNat.mp hc
      obtain ⟨-, hbyte, rfl⟩ := hb.resolve_right (by omega)
      have hdigit : isDigitByte b = true := isDigitByte_iff.mpr (by omega)
      rw [List.takeWhile_cons_of_pos hdigit, List.takeWhile_cons_of_pos hc, List.length_cons,
        List.length_cons, List.nil_append, ih]
    · have hdigit : ¬ isDigitByte b = true := by
        rw [isDigitByte_iff]
        rw [Char.isDigit_iff_toNat] at hc
        omega
      rw [List.takeWhile_cons_of_neg hdigit, List.takeWhile_cons_of_neg hc]
      rfl

/-! ### Cuts -/

/-- The bytes from an offset on; fails behind the end. -/
def bytesFrom (bs : List UInt8) (offset : Nat) : Option (List UInt8) :=
  if offset ≤ bs.length then some (bs.drop offset) else none

/-- The text up to an offset; fails behind the end and inside a character. -/
def textUpTo (text : List Char) (offset : Nat) : Option (List Char) :=
  if offset = 0 then some []
  else
    match text with
    | [] => none
    | c :: text =>
      if c.utf8Size ≤ offset then (textUpTo text (offset - c.utf8Size)).map (c :: ·) else none

theorem length_utf8_cons (c : Char) (text : List Char) :
    (utf8 (c :: text)).length = c.utf8Size + (utf8 text).length := by
  rw [utf8_cons, List.length_append, String.length_utf8EncodeChar]

/-- **A text can be cut where a character ends**, and nowhere else. -/
theorem textUpTo_eq_some_iff {text front : List Char} {offset : Nat} :
    textUpTo text offset = some front ↔ front <+: text ∧ (utf8 front).length = offset := by
  induction text generalizing front offset with
  | nil =>
    rw [List.prefix_nil, textUpTo]
    split
    · next hzero =>
      rw [Option.some.injEq, hzero]
      constructor
      · rintro rfl
        exact ⟨rfl, rfl⟩
      · exact fun h => h.1.symm
    · next hne =>
      refine iff_of_false nofun ?_
      rintro ⟨rfl, hlength⟩
      exact hne hlength.symm
  | cons c text ih =>
    rw [textUpTo]
    cases front with
    | nil =>
      rw [iff_true_intro List.nil_prefix, true_and]
      split
      · next hzero => exact iff_of_true rfl hzero.symm
      · next hne =>
        refine iff_of_false ?_ fun hlength => hne hlength.symm
        split <;> simp
    | cons d front =>
      rw [List.cons_prefix_cons, length_utf8_cons]
      have hpos := d.utf8Size_pos
      split
      · next hzero => exact iff_of_false nofun fun h => by omega
      · split
        · next hsize =>
          rw [Option.map_eq_some_iff]
          constructor
          · rintro ⟨front, hfront, hcons⟩
            obtain ⟨rfl, rfl⟩ := List.cons.inj hcons
            obtain ⟨hstarts, hlength⟩ := ih.mp hfront
            exact ⟨⟨rfl, hstarts⟩, by omega⟩
          · rintro ⟨⟨rfl, hstarts⟩, hlength⟩
            exact ⟨front, ih.mpr ⟨hstarts, by omega⟩, rfl⟩
        · next hsize =>
          refine iff_of_false nofun ?_
          rintro ⟨⟨rfl, -⟩, hlength⟩
          omega

/-! ### The scanner by offsets -/

/-- How many digits stand at an offset. -/
def digitsAt (bs : List UInt8) (offset : Nat) : Option Nat :=
  (bytesFrom bs offset).map fun rest => (rest.takeWhile isDigitByte).length

/-- How many signs stand at an offset: one or none. -/
def signAt (bs : List UInt8) (offset : Nat) : Nat :=
  if bs[offset]? = some (asciiByte '+') ∨ bs[offset]? = some (asciiByte '-') then 1 else 0

/-- The digits of the fraction behind `whole` digits that end at an offset, and where the
fraction ends.  A point without a digit on either side is left alone. -/
def fractionEnd (bs : List UInt8) (whole offset : Nat) : Option (Nat × Nat) :=
  if bs[offset]? = some (asciiByte '.') then
    (digitsAt bs (offset + 1)).map fun fraction =>
      (fraction, if 0 < whole + fraction then offset + 1 + fraction else offset)
  else some (0, offset)

/-- Where the exponent ends that begins at an offset; at the offset itself without a digit. -/
def exponentEnd (bs : List UInt8) (offset : Nat) : Option Nat :=
  if bs[offset]? = some (asciiByte 'e') ∨ bs[offset]? = some (asciiByte 'E') then
    let start := offset + 1 + signAt bs (offset + 1)
    (digitsAt bs (min start bs.length)).map fun digits =>
      if 0 < digits then start + digits else offset
  else some offset

/-- Where the decimal number in front of some bytes ends, if there is one. -/
def numberEnd (bs : List UInt8) : Option (Option Nat) := do
  let start := signAt bs 0
  let whole ← digitsAt bs start
  let (fraction, offset) ← fractionEnd bs whole (start + whole)
  if whole + fraction = 0 then return none
  else return some (← exponentEnd bs offset)

/-- The decimal number in front of a text, if there is one. -/
def numberPrefix (text : List Char) : Option (Option (List Char)) := do
  match ← numberEnd (utf8 text) with
  | none => return none
  | some offset => return some (← textUpTo text offset)

/-- The double that a text denotes, if the whole of it is a decimal number. -/
def parseDouble (text : List Char) : Option Double :=
  (DecimalText.scan text).bind fun t => if t.chars = text then t.value else none

theorem parseDouble_chars {t : DecimalText} (h : t.WellFormed) : parseDouble t.chars = t.value := by
  rw [parseDouble, h.scan_chars, Option.bind_some, if_pos rfl]

/-! ### How the offset moves -/

/-- The text goes on with `rest` at an offset, behind characters of ASCII. -/
def OnAt (text : List Char) (offset : Nat) (rest : List Char) : Prop :=
  ∃ front, text = front ++ rest ∧ IsAscii front ∧ front.length = offset

theorem length_utf8_of_isAscii {text : List Char} (h : IsAscii text) :
    (utf8 text).length = text.length := by
  induction text with
  | nil => rfl
  | cons c text ih =>
    obtain ⟨hc, htext⟩ := List.forall_mem_cons.mp h
    obtain ⟨b, bs, hencode, hb⟩ := exists_utf8EncodeChar c
    obtain ⟨-, -, rfl⟩ := hb.resolve_right (by omega)
    rw [utf8_cons, hencode, List.singleton_append, List.length_cons, ih htext, List.length_cons]

theorem isAscii_of_isDigit {digits : List Char} (h : ∀ c ∈ digits, c.isDigit) : IsAscii digits := by
  intro c hc
  have hnine : '9'.toNat < 128 := by decide
  have hrange := Char.isDigit_iff_toNat.mp (h c hc)
  omega

theorem isAscii_of_sign {sign : List Char} (h : sign ∈ [[], ['+'], ['-']]) : IsAscii sign := by
  simp only [List.mem_cons, List.not_mem_nil, or_false] at h
  rcases h with rfl | rfl | rfl
  · exact nofun
  · exact List.forall_mem_singleton.mpr (by decide)
  · exact List.forall_mem_singleton.mpr (by decide)

theorem toNat_lt_of_mark {c : Char} (h : c = 'e' ∨ c = 'E') : c.toNat < 128 := by
  rcases h with rfl | rfl <;> decide

theorem length_splitSign (text : List Char) : (splitSign text).1.length =
    if text.head? = some '+' ∨ text.head? = some '-' then 1 else 0 := by
  unfold splitSign
  split
  · rfl
  · rfl
  · next hplus hminus =>
    rw [if_neg]
    · rfl
    · rintro (hhead | hhead)
      · exact (List.head?_eq_some_iff.mp hhead).elim hplus
      · exact (List.head?_eq_some_iff.mp hhead).elim hminus

namespace OnAt

variable {text rest : List Char} {offset : Nat}

theorem start (text : List Char) : OnAt text 0 text := ⟨[], rfl, nofun, rfl⟩

/-- The offset moves over characters of ASCII, one byte each. -/
theorem advance {more : List Char} (h : OnAt text offset (more ++ rest)) (hmore : IsAscii more) :
    OnAt text (offset + more.length) rest := by
  obtain ⟨front, rfl, hfront, rfl⟩ := h
  exact ⟨front ++ more, (List.append_assoc _ _ _).symm, List.forall_mem_append.mpr ⟨hfront, hmore⟩,
    List.length_append⟩

/-- The offset moves over one character of ASCII. -/
theorem next {c : Char} (h : OnAt text offset (c :: rest)) (hc : c.toNat < 128) :
    OnAt text (offset + 1) rest :=
  @advance text rest offset [c] h (List.forall_mem_singleton.mpr hc)

theorem exists_utf8 (h : OnAt text offset rest) :
    ∃ bs, utf8 text = bs ++ utf8 rest ∧ bs.length = offset := by
  obtain ⟨front, rfl, hfront, rfl⟩ := h
  exact ⟨utf8 front, utf8_append front rest, length_utf8_of_isAscii hfront⟩

theorem le_length (h : OnAt text offset rest) : offset ≤ (utf8 text).length := by
  obtain ⟨bs, hbs, rfl⟩ := h.exists_utf8
  rw [hbs, List.length_append]
  exact Nat.le_add_right _ _

/-- The bytes are cut where the rest begins. -/
theorem bytesFrom_eq (h : OnAt text offset rest) :
    bytesFrom (utf8 text) offset = some (utf8 rest) := by
  rw [bytesFrom, if_pos h.le_length]
  obtain ⟨bs, hbs, rfl⟩ := h.exists_utf8
  rw [hbs, List.drop_left]

/-- The byte at the offset is that of the next character, if it is of ASCII. -/
theorem getElem?_eq_iff (h : OnAt text offset rest) (c : Char) (hc : c.toNat < 128) :
    (utf8 text)[offset]? = some (asciiByte c) ↔ rest.head? = some c := by
  obtain ⟨bs, hbs, rfl⟩ := h.exists_utf8
  rw [hbs, List.getElem?_append_right (Nat.le_refl _), Nat.sub_self, ← List.head?_eq_getElem?,
    head?_utf8_eq_iff hc]

theorem signAt_eq (h : OnAt text offset rest) :
    signAt (utf8 text) offset = (splitSign rest).1.length := by
  simp only [signAt, h.getElem?_eq_iff '+' (by decide),
    h.getElem?_eq_iff '-' (by decide), length_splitSign]

/-- Behind a sign, or where none is. -/
theorem behind_sign (h : OnAt text offset rest) :
    OnAt text (offset + (splitSign rest).1.length) (splitSign rest).2 := by
  obtain ⟨hrest, hsign⟩ := splitSign_spec rest
  exact advance (hrest ▸ h) (isAscii_of_sign hsign)

theorem digitsAt_eq (h : OnAt text offset rest) :
    digitsAt (utf8 text) offset = some (splitDigits rest).1.length := by
  rw [digitsAt, h.bytesFrom_eq, Option.map_some, length_takeWhile_utf8]

/-- Behind all digits that stand there. -/
theorem behind_digits (h : OnAt text offset rest) :
    OnAt text (offset + (splitDigits rest).1.length) (splitDigits rest).2 := by
  obtain ⟨hrest, hdigits, -⟩ := splitDigits_spec rest
  exact advance (hrest ▸ h) (isAscii_of_isDigit hdigits)

theorem fractionEnd_of_point (h : OnAt text offset ('.' :: rest)) (whole : Nat) :
    fractionEnd (utf8 text) whole offset = some ((splitDigits rest).1.length,
      if 0 < whole + (splitDigits rest).1.length then offset + 1 + (splitDigits rest).1.length
      else offset) := by
  have hpoint := (h.getElem?_eq_iff '.' (by decide)).mpr rfl
  rw [fractionEnd, if_pos hpoint, (h.next (by decide)).digitsAt_eq, Option.map_some]

theorem fractionEnd_of_head (h : OnAt text offset rest) (hhead : rest.head? ≠ some '.')
    (whole : Nat) : fractionEnd (utf8 text) whole offset = some (0, offset) := by
  rw [fractionEnd, if_neg]
  rwa [h.getElem?_eq_iff '.' (by decide)]

/-- The exponent is found that stands there. -/
theorem exponentEnd_eq (h : OnAt text offset rest) : exponentEnd (utf8 text) offset =
    some (offset + (((ExponentText.scan rest).map ExponentText.chars).getD []).length) := by
  simp only [exponentEnd, h.getElem?_eq_iff 'e' (by decide),
    h.getElem?_eq_iff 'E' (by decide)]
  cases rest with
  | nil => rfl
  | cons mark rest =>
    simp only [ExponentText.scan, List.head?_cons, Option.some.injEq]
    split
    · next hmark =>
      have hstart := h.next (toNat_lt_of_mark hmark)
      have hsign := hstart.behind_sign
      simp only [hstart.signAt_eq, Nat.min_eq_left hsign.le_length, hsign.digitsAt_eq,
        Option.map_some]
      -- the mark and the sign count only with a digit behind them
      cases (splitDigits (splitSign rest).2).1 with
      | nil => rfl
      | cons c digits =>
        simp [ExponentText.chars]
        omega
    · rfl

end OnAt

/-- **The scanner by offsets ends where the scanner of pieces does**, and no cut fails. -/
theorem numberEnd_eq (text : List Char) :
    numberEnd (utf8 text) = some ((DecimalText.scan text).map fun t => t.chars.length) := by
  have hstart := OnAt.start text
  have hsign := hstart.behind_sign
  have hwhole := hsign.behind_digits
  have hdigitsAt := hsign.digitsAt_eq
  rw [Nat.zero_add] at hsign hwhole hdigitsAt
  unfold numberEnd DecimalText.scan
  simp only [hstart.signAt_eq, hdigitsAt]
  generalize splitSign text = signed at *
  obtain ⟨sign, rest⟩ := signed
  dsimp only at *
  generalize splitDigits rest = parts at *
  obtain ⟨whole, behind⟩ := parts
  dsimp only at *
  split
  · next behind =>
    have hfraction := (hwhole.next (by decide)).behind_digits
    simp only [Option.bind_eq_bind, Option.bind_some, hwhole.fractionEnd_of_point]
    generalize splitDigits behind = parts at *
    obtain ⟨fraction, tail⟩ := parts
    dsimp only at *
    have hempty : (whole.isEmpty && fraction.isEmpty) = true ↔
        whole.length + fraction.length = 0 := by
      rw [Bool.and_eq_true, List.isEmpty_iff_length_eq_zero, List.isEmpty_iff_length_eq_zero]
      omega
    simp only [hempty]
    split
    · rfl
    · next hne =>
      rw [if_pos (Nat.pos_of_ne_zero hne), hfraction.exponentEnd_eq]
      simp [DecimalText.chars]
      omega
  · next hpoint =>
    have hhead : behind.head? ≠ some '.' := fun h =>
      (List.head?_eq_some_iff.mp h).elim hpoint
    simp only [Option.bind_eq_bind, Option.bind_some, hwhole.fractionEnd_of_head hhead]
    simp only [Nat.add_zero, List.isEmpty_iff_length_eq_zero]
    split
    · rfl
    · rw [hwhole.exponentEnd_eq]
      simp [DecimalText.chars]
      omega

/-- The characters of a decimal number are of ASCII. -/
theorem DecimalText.WellFormed.isAscii {t : DecimalText} (h : t.WellFormed) : IsAscii t.chars := by
  obtain ⟨sign, whole, fraction, exponent⟩ := t
  obtain ⟨hsign, hwhole, hfraction, -, hexponent⟩ := h
  have hpoint : IsAscii ((fraction.map ('.' :: ·)).getD []) := by
    cases fraction with
    | none => exact nofun
    | some digits =>
      exact List.forall_mem_cons.mpr ⟨by decide, isAscii_of_isDigit (hfraction digits rfl)⟩
  have hbehind : IsAscii ((exponent.map ExponentText.chars).getD []) := by
    cases exponent with
    | none => exact nofun
    | some e =>
      obtain ⟨hmark, hsign, -, hdigits⟩ := hexponent e rfl
      refine List.forall_mem_append.mpr ⟨List.forall_mem_cons.mpr ⟨?_, isAscii_of_sign hsign⟩,
        isAscii_of_isDigit hdigits⟩
      exact toNat_lt_of_mark hmark
  simp only [IsAscii, DecimalText.chars, List.forall_mem_append]
  exact ⟨⟨⟨isAscii_of_sign hsign, isAscii_of_isDigit hwhole⟩, hpoint⟩, hbehind⟩

/-- What the scanner by offsets cuts out is what the scanner of pieces takes. -/
theorem numberPrefix_eq (text : List Char) :
    numberPrefix text = some ((DecimalText.scan text).map DecimalText.chars) := by
  rw [numberPrefix, numberEnd_eq]
  cases hscan : DecimalText.scan text with
  | none => rfl
  | some t =>
    obtain ⟨ht, hbegins⟩ := DecimalText.wellFormed_of_scan hscan
    have hcut : textUpTo text t.chars.length = some t.chars :=
      textUpTo_eq_some_iff.mpr ⟨hbegins, length_utf8_of_isAscii ht.isAscii⟩
    show (textUpTo text t.chars.length).bind _ = _
    rw [hcut]
    rfl

/-- **The longest decimal number at the head of a text is handed over**, and no cut fails.
Behind the leading white space of a text, the scanner by offsets finds all bytes that it asks
for, and cuts the text between two characters.  What it hands over is the longest front of the
text that is a decimal number; it gives up exactly if no front is one.  The default that a text
declares for a number is the double that is read of what is handed over. -/
theorem number_prefix_is_longest (text : List Char) :
    ∃ handed, numberPrefix (trimStart text) = some handed ∧
      (∀ front, handed = some front ↔ IsDecimal front ∧ front <+: trimStart text ∧
        ∀ other, IsDecimal other → other <+: trimStart text → other.length ≤ front.length) ∧
      (handed = none ↔ ∀ front, front <+: trimStart text → ¬ IsDecimal front) ∧
      Primitive.castNumber text =
        ((handed.bind parseDouble).map Primitive.ofDouble).getD .null := by
  refine ⟨_, numberPrefix_eq (trimStart text), fun front => ?_, ?_, ?_⟩
  · rw [Option.map_eq_some_iff]
    constructor
    · rintro ⟨t, hscan, rfl⟩
      obtain ⟨ht, hbegins, hlongest⟩ := DecimalText.scan_eq_some_iff.mp hscan
      refine ⟨isDecimal_iff.mpr ⟨t, ht, rfl⟩, hbegins, fun other hother hstarts => ?_⟩
      obtain ⟨u, hu, rfl⟩ := isDecimal_iff.mp hother
      exact hlongest u hu hstarts
    · rintro ⟨hfront, hbegins, hlongest⟩
      obtain ⟨t, ht, rfl⟩ := isDecimal_iff.mp hfront
      refine ⟨t, DecimalText.scan_eq_some_iff.mpr ⟨ht, hbegins, fun u hu hstarts => ?_⟩, rfl⟩
      exact hlongest u.chars (isDecimal_iff.mpr ⟨u, hu, rfl⟩) hstarts
  · rw [Option.map_eq_none_iff, DecimalText.scan_eq_none_iff]
    constructor
    · rintro hnone front hbegins hfront
      obtain ⟨t, ht, rfl⟩ := isDecimal_iff.mp hfront
      exact hnone ⟨t, ht, hbegins⟩
    · rintro hnone ⟨t, ht, hbegins⟩
      exact hnone t.chars hbegins (isDecimal_iff.mpr ⟨t, ht, rfl⟩)
  · rw [Primitive.castNumber]
    cases hscan : DecimalText.scan (trimStart text) with
    | none => rfl
    | some t =>
      rw [Option.map_some, Option.bind_some, Option.bind_some,
        parseDouble_chars (DecimalText.wellFormed_of_scan hscan).1]

/-- A sign and a mark without digits are left behind, in front of a character of two bytes. -/
example : numberPrefix "-.5e+é".toList = some (some "-.5".toList) := by decide

end TerseSchema
