import Mathlib.Algebra.Order.Field.Power
import Mathlib.Tactic.Positivity
import Mathlib.Tactic.Ring
import TerseSchema.Number.Shortest
import TerseSchema.Proofs.Numerals

/-!
# The text of a number is its own

The reals that round to a double form an interval, and the intervals of two magnitudes
have at most an end in common, which rounds to only one of them.  What is written of a
number lies in its interval and its pieces are read back as they were written, so that no
two numbers are written alike.  The decimals are compared as rationals here, while the
search for the shortest one compares whole numbers.

## Main definitions

* `Double.Covers` — the reals that round to the magnitude of a number.
* `DecimalText.Plain`, `DecimalText.magnitude` — pieces that are read back, and what they
  denote.
* `layout`, `Double.pieces`, `integerPieces` — the pieces of what is written.

## Main results

* `Double.readsBack_iff` — the comparison of whole numbers decides `Double.Covers`.
* `Double.units_eq_of_covers` — **a real rounds to one magnitude.**
* `Double.readsBack_shortest` — the decimal that is written reads back.
* `DecimalText.Plain.wellFormed` — pieces are read off their text.
* `Double.text_injective` — **different numbers have different texts.**
-/

namespace TerseSchema

namespace Double

/-! ### The reals that round to a number -/

/-- Four times the lower end of the interval of reals that round to the magnitude of a
number, in multiples of `2 ^ -1074`. -/
def low (x : Double) : Nat :=
  (4 * x.mantissa - if x.mantissa = pow2 52 ∧ x.scale ≠ 0 then 1 else 2) * pow2 x.scale

/-- Four times its upper end. -/
def high (x : Double) : Nat := (4 * x.mantissa + 2) * pow2 x.scale

/-- A quarter of `q * 2 ^ -1074` rounds to the magnitude of a number. -/
def Covers (x : Double) (q : ℚ) : Prop :=
  if x.mantissa % 2 = 0 then (x.low : ℚ) ≤ q ∧ q ≤ x.high else (x.low : ℚ) < q ∧ q < x.high

variable {x y : Double}

theorem Covers.le {q : ℚ} (h : x.Covers q) : (x.low : ℚ) ≤ q ∧ q ≤ x.high := by
  rw [Covers] at h
  split at h
  · exact h
  · exact ⟨h.1.le, h.2.le⟩

theorem Covers.lt {q : ℚ} (h : x.Covers q) (hodd : x.mantissa % 2 = 1) :
    (x.low : ℚ) < q ∧ q < x.high := by
  rw [Covers, if_neg (by omega)] at h
  exact h

theorem cast_pow10 (n : Nat) : ((pow10 n : ℕ) : ℚ) = 10 ^ n := Nat.cast_pow 10 n

/-- A power of ten is a quotient of two whole ones. -/
theorem zpow_mul_pow10 (e : ℤ) :
    (10 : ℚ) ^ e * ((pow10 (-e).toNat : ℕ) : ℚ) = ((pow10 e.toNat : ℕ) : ℚ) := by
  rw [cast_pow10, cast_pow10, ← zpow_natCast, ← zpow_natCast, ← zpow_add₀ (by norm_num)]
  congr 1
  omega

/-- Four times a decimal, in multiples of `2 ^ -1074`. -/
def scaled (digits : Nat) (exponent : Int) : ℚ := 4 * digits * 10 ^ exponent * (pow2 1074 : ℕ)

/-- **A decimal reads back if it lies in the interval of a number.** -/
theorem readsBack_iff {digits : Nat} {exponent : Int} : x.readsBack digits exponent = true ↔
    x.Covers (scaled digits exponent) := by
  -- whole numbers are compared, for which both sides are multiplied by the denominator
  generalize hden : pow10 (-exponent).toNat = den
  generalize hpoint : 4 * digits * pow10 exponent.toNat * pow2 1074 = point
  have hpos : (0 : ℚ) < den := by
    rw [← hden]
    exact_mod_cast Nat.pow_pos (by decide)
  have hscaled : scaled digits exponent * den = point := by
    rw [← hpoint, ← hden]
    calc scaled digits exponent * ((pow10 (-exponent).toNat : ℕ) : ℚ)
        = 4 * digits * (10 ^ exponent * ((pow10 (-exponent).toNat : ℕ) : ℚ)) * (pow2 1074 : ℕ) := by
          rw [scaled]
          ring
      _ = ((4 * digits * pow10 exponent.toNat * pow2 1074 : ℕ) : ℚ) := by
          rw [zpow_mul_pow10]
          push_cast
          rfl
  have hle : ∀ n : ℕ, (n : ℚ) ≤ scaled digits exponent ↔ n * den ≤ point := by
    intro n
    rw [← mul_le_mul_iff_left₀ hpos, hscaled]
    exact_mod_cast Iff.rfl
  have hge : ∀ n : ℕ, scaled digits exponent ≤ n ↔ point ≤ n * den := by
    intro n
    rw [← mul_le_mul_iff_left₀ hpos, hscaled]
    exact_mod_cast Iff.rfl
  rw [Covers, ← not_le, ← not_le, hle, hge, hle, hge, low, high, Nat.mul_assoc, Nat.mul_assoc]
  simp only [readsBack, hden, hpoint]
  split
  · rw [Bool.and_eq_true, decide_eq_true_iff, decide_eq_true_iff]
  · rw [Bool.and_eq_true, decide_eq_true_iff, decide_eq_true_iff, not_le, not_le]

/-! ### Intervals of different numbers -/

/-- A greater scale makes a greater magnitude. -/
theorem units_lt_of_scale_lt (h : x.scale < y.scale) : x.units < y.units := by
  have hx : x.mantissa < 2 * pow2 52 := x.mantissa_lt
  have hfull : pow2 52 ≤ y.mantissa := y.leading.resolve_left (by omega)
  have hpow : 2 * pow2 x.scale ≤ pow2 y.scale := by
    rw [Nat.mul_comm]
    exact pow2_le_pow2 h
  calc x.mantissa * pow2 x.scale < 2 * pow2 52 * pow2 x.scale :=
        Nat.mul_lt_mul_of_pos_right hx (pow2_pos _)
    _ = pow2 52 * (2 * pow2 x.scale) := by ring
    _ ≤ y.mantissa * pow2 y.scale := Nat.mul_le_mul hfull hpow

/-- Numbers of different magnitudes have intervals that meet at their ends at most, and at
an end only one of the mantissas is even. -/
theorem high_le_low (h : x.units < y.units) :
    x.high ≤ y.low ∧ (x.high = y.low → x.mantissa % 2 = 1 ∨ y.mantissa % 2 = 1) := by
  have hx : x.mantissa < 2 * pow2 52 := x.mantissa_lt
  rw [high, low]
  have hpos := pow2_pos x.scale
  rcases Nat.lt_trichotomy x.scale y.scale with hlt | heq | hgt
  · have hfull : pow2 52 ≤ y.mantissa := y.leading.resolve_left (by omega)
    have hscale : y.scale ≠ 0 := by omega
    have hpow : 2 * pow2 x.scale ≤ pow2 y.scale := by
      rw [Nat.mul_comm]
      exact pow2_le_pow2 hlt
    generalize hbelow : (if y.mantissa = pow2 52 ∧ y.scale ≠ 0 then 1 else 2) = below
    -- the lower neighbour of a power of two has an odd mantissa, and is the nearest case
    have hends : 4 * x.mantissa + 2 ≤ 2 * (4 * y.mantissa - below) ∧
        (4 * x.mantissa + 2 = 2 * (4 * y.mantissa - below) → x.mantissa % 2 = 1) := by
      split at hbelow <;> omega
    have hle : (4 * x.mantissa + 2) * pow2 x.scale ≤ 2 * (4 * y.mantissa - below) * pow2 x.scale :=
      Nat.mul_le_mul_right _ hends.1
    have hle' : 2 * (4 * y.mantissa - below) * pow2 x.scale ≤
        (4 * y.mantissa - below) * pow2 y.scale := by
      rw [Nat.mul_comm 2, Nat.mul_assoc]
      exact Nat.mul_le_mul_left _ hpow
    refine ⟨Nat.le_trans hle hle', fun he => .inl (hends.2 ?_)⟩
    exact Nat.eq_of_mul_eq_mul_right hpos (Nat.le_antisymm hle (he ▸ hle'))
  · rw [units, units, ← heq] at h
    rw [← heq]
    have hlt : x.mantissa < y.mantissa := Nat.lt_of_mul_lt_mul_right h
    have hbelow : (if y.mantissa = pow2 52 ∧ x.scale ≠ 0 then 1 else 2) = 2 := by
      refine if_neg fun ⟨hy, hscale⟩ => ?_
      have hfull := x.leading.resolve_left hscale
      omega
    rw [hbelow]
    refine ⟨Nat.mul_le_mul_right _ (by omega), fun he => ?_⟩
    have hends := Nat.eq_of_mul_eq_mul_right hpos he
    omega
  · exact absurd h (Nat.lt_asymm (units_lt_of_scale_lt hgt))

/-- **A real rounds to one magnitude.** -/
theorem units_eq_of_covers {q : ℚ} (hx : x.Covers q) (hy : y.Covers q) : x.units = y.units := by
  have hnot : ∀ {x y : Double}, x.Covers q → y.Covers q → ¬ x.units < y.units := by
    intro x y hx hy h
    obtain ⟨hle, hend⟩ := high_le_low h
    have hle' : (x.high : ℚ) ≤ y.low := by exact_mod_cast hle
    have heq : x.high = y.low := by
      have := le_antisymm hle' (hy.le.1.trans hx.le.2)
      exact_mod_cast this
    rcases hend heq with hodd | hodd
    · exact absurd ((hx.lt hodd).2.trans_le (hle'.trans hy.le.1)) (lt_irrefl q)
    · exact absurd ((hx.le.2.trans hle').trans_lt (hy.lt hodd).1) (lt_irrefl q)
  exact Nat.le_antisymm (Nat.le_of_not_lt (hnot hy hx)) (Nat.le_of_not_lt (hnot hx hy))

/-- A magnitude is kept in one way. -/
theorem mantissa_scale_of_units (h : x.units = y.units) :
    x.mantissa = y.mantissa ∧ x.scale = y.scale := by
  have hscale : x.scale = y.scale := by
    refine Nat.le_antisymm (Nat.le_of_not_lt fun hlt => ?_) (Nat.le_of_not_lt fun hlt => ?_)
    · exact absurd h.symm (Nat.ne_of_lt (units_lt_of_scale_lt hlt))
    · exact absurd h (Nat.ne_of_lt (units_lt_of_scale_lt hlt))
  refine ⟨?_, hscale⟩
  rw [units, units, hscale] at h
  exact Nat.eq_of_mul_eq_mul_right (pow2_pos _) h

/-! ### The decimal that is written -/

theorem readsBack_of_onGrid {exponent : Int} {d : Nat × Int} (h : x.onGrid exponent = some d) :
    x.readsBack d.1 d.2 = true := by
  obtain ⟨near, far, hgrid⟩ : ∃ near far, x.onGrid exponent =
      if x.readsBack near exponent then some (near, exponent)
      else if x.readsBack far exponent then some (far, exponent)
      else none := ⟨_, _, rfl⟩
  rw [hgrid] at h
  split at h
  · next hnear => exact Option.some.inj h ▸ hnear
  · split at h
    · next hfar => exact Option.some.inj h ▸ hfar
    · cases h

/-- A number other than zero lies in its own interval. -/
theorem covers_units (h : x.isZero = false) : x.Covers (4 * x.units) := by
  have hpos := pow2_pos x.scale
  have hmantissa : x.mantissa ≠ 0 := by simpa [isZero] using h
  have hlow : x.low < 4 * x.units := by
    rw [low, units, ← Nat.mul_assoc]
    refine Nat.mul_lt_mul_of_pos_right ?_ hpos
    split <;> omega
  have hhigh : 4 * x.units < x.high := by
    rw [high, units, ← Nat.mul_assoc]
    exact Nat.mul_lt_mul_of_pos_right (by omega) hpos
  have hlow' : (x.low : ℚ) < 4 * x.units := by exact_mod_cast hlow
  have hhigh' : (4 * x.units : ℚ) < x.high := by exact_mod_cast hhigh
  rw [Covers]
  split
  · exact ⟨hlow'.le, hhigh'.le⟩
  · exact ⟨hlow', hhigh'⟩

/-- With as many digits behind the point as there are halvings, a decimal is exact. -/
theorem scaled_exact (units : ℕ) {n : ℕ} (hn : n = 1074) :
    scaled (units * Nat.pow 5 n) (-(n : ℤ)) = 4 * units := by
  have hten : ((Nat.pow 5 n : ℕ) : ℚ) * (pow2 n : ℕ) = 10 ^ n := by
    rw [← cast_pow10, ← Nat.cast_mul]
    exact congrArg _ (Nat.mul_pow 5 2 n).symm
  have hone : (10 : ℚ) ^ n * 10 ^ (-(n : ℤ)) = 1 := by
    rw [← zpow_natCast, ← zpow_add₀ (by norm_num), add_neg_cancel, zpow_zero]
  calc scaled (units * Nat.pow 5 n) (-(n : ℤ))
      = 4 * units * ((Nat.pow 5 n : ℕ) * (pow2 n : ℕ) * 10 ^ (-(n : ℤ))) := by
        rw [scaled, Nat.cast_mul, ← hn]
        ring
    _ = 4 * units := by rw [hten, hone, mul_one]

/-- **The decimal that is written reads back.** -/
theorem readsBack_shortest (h : x.isZero = false) :
    x.readsBack x.shortest.1 x.shortest.2 = true := by
  rw [shortest]
  cases hfind : ((List.range 633).map fun (i : Nat) => 308 - (i : Int)).findSome? x.onGrid with
  | some d =>
    obtain ⟨exponent, -, hgrid⟩ := List.exists_of_findSome?_eq_some hfind
    exact readsBack_of_onGrid hgrid
  | none =>
    -- the exact value
    have hexact : ∀ n, n = 1074 → x.readsBack (x.units * Nat.pow 5 n) (-(n : ℤ)) = true := by
      intro n hn
      rw [readsBack_iff, scaled_exact x.units hn]
      exact covers_units h
    exact hexact 1074 rfl

end Double

/-! ### Reading pieces back -/

/-- An exponent as it is written: with a digit, and a sign perhaps. -/
structure ExponentText.Plain (e : ExponentText) : Prop where
  mark : e.mark = 'e'
  sign : e.sign ∈ [[], ['+'], ['-']]
  ne_nil : e.digits ≠ []
  digits : ∀ c ∈ e.digits, c.isDigit

theorem ExponentText.Plain.wellFormed {e : ExponentText} (h : e.Plain) : e.WellFormed :=
  ⟨.inl h.mark, h.sign, h.ne_nil, h.digits⟩

/-- A decimal number as it is written: with a digit before the point, and a sign perhaps. -/
structure DecimalText.Plain (t : DecimalText) : Prop where
  sign : t.sign ∈ [[], ['+'], ['-']]
  ne_nil : t.whole ≠ []
  whole : ∀ c ∈ t.whole, c.isDigit
  fraction : ∀ digits ∈ t.fraction, ∀ c ∈ digits, c.isDigit
  exponent : ∀ e ∈ t.exponent, e.Plain

/-- What is written may be written, and so is read off its text. -/
theorem DecimalText.Plain.wellFormed {t : DecimalText} (h : t.Plain) : t.WellFormed where
  sign := h.sign
  whole := h.whole
  fraction := h.fraction
  ne_nil := List.append_ne_nil_of_left_ne_nil h.ne_nil _
  exponent e he := (h.exponent e he).wellFormed

/-- The magnitude that pieces denote. -/
def DecimalText.magnitude (t : DecimalText) : ℚ :=
  Nat.ofDigitChars 10 (t.whole ++ t.fraction.getD []) 0 *
    10 ^ ((t.exponent.map ExponentText.value).getD 0 - (t.fraction.getD []).length)

/-! ### The pieces of a text -/

theorem plain_digits (n : Nat) : Nat.toDigits 10 n ≠ [] ∧ ∀ c ∈ Nat.toDigits 10 n, c.isDigit :=
  ⟨Nat.toDigits_ne_nil, fun _ hc => Nat.isDigit_of_mem_toDigits (by decide) (by decide) hc⟩

/-- The sign of a number. -/
def signText (negative : Bool) : List Char := if negative then ['-'] else []

/-- The exponent of a number of which `plus` stands in front unless it is negative. -/
def exponentText (plus : List Char) (n : Int) : ExponentText :=
  ⟨'e', if n < 0 then ['-'] else plus, Nat.toDigits 10 n.natAbs⟩

/-- The pieces of `± value * 10 ^ exponent`, as it is laid out. -/
def layout (plus : List Char) (negative : Bool) (value : Nat) (exponent : Int) : DecimalText :=
  let sign := signText negative
  let digits := Nat.toDigits 10 value
  let point : Int := digits.length + exponent
  if 0 ≤ exponent ∧ point ≤ 16 then
    ⟨sign, digits ++ List.replicate exponent.toNat '0', some ['0'], none⟩
  else if 0 < point ∧ point ≤ 16 then
    ⟨sign, digits.take point.toNat, some (digits.drop point.toNat), none⟩
  else if -5 < point ∧ point ≤ 0 then
    ⟨sign, ['0'], some (List.replicate (-point).toNat '0' ++ digits), none⟩
  else
    ⟨sign, digits.take 1, if (digits.drop 1).isEmpty then none else some (digits.drop 1),
      some (exponentText plus (point - 1))⟩

/-- The pieces of an integer. -/
def integerPieces (z : Int) : DecimalText :=
  ⟨signText (z < 0), Nat.toDigits 10 z.natAbs, none, none⟩

theorem chars_integerPieces (z : Int) :
    (integerPieces z).chars = signText (z < 0) ++ Nat.toDigits 10 z.natAbs := by
  rw [DecimalText.chars, integerPieces]
  exact (List.append_nil _).trans (List.append_nil _)

theorem toList_toString_int (z : Int) : (toString z).toList = (integerPieces z).chars := by
  rw [chars_integerPieces, signText, Int.toString_eq_repr, Int.repr_eq_if]
  split
  · next h =>
    rw [if_neg (by simpa using h), Nat.toList_repr, List.nil_append]
    congr 1
    omega
  · next h =>
    rw [if_pos (by simpa using h), String.toList_append, Nat.toList_repr]
    congr 2
    omega

theorem chars_exponentText (plus : String) (point : Int) :
    (exponentText plus.toList (point - 1)).chars =
      'e' :: ((if point ≤ 0 then "" else plus).toList ++ (toString (point - 1)).toList) := by
  rw [ExponentText.chars, exponentText, toList_toString_int, DecimalText.chars, integerPieces,
    signText]
  by_cases hneg : point - 1 < 0
  · have hpoint : point ≤ 0 := by omega
    simp [hneg, hpoint]
  · have hpoint : ¬ point ≤ 0 := by omega
    simp [hneg, hpoint]

/-- **The text of a number other than zero is that of its pieces.** -/
theorem Double.toList_text {x : Double} (h : x.isZero = false) (plus : String) :
    (x.text plus).toList =
      (layout plus.toList x.negative x.shortest.1 x.shortest.2).chars := by
  have hsign : (if x.negative then "-" else "" : String).toList = signText x.negative := by
    rw [signText]
    split <;> rfl
  rw [text, h]
  generalize x.shortest = d
  obtain ⟨value, exponent⟩ := d
  simp only [Bool.false_eq_true, if_false, String.toList_append, hsign, String.toList_ofList,
    layout, DecimalText.chars]
  split
  · simp
  · split
    · simp
    · split
      · simp
      · generalize (Nat.toDigits 10 value).drop 1 = fraction
        cases fraction with
        | nil => simp [chars_exponentText]
        | cons c fraction => simp [chars_exponentText]

theorem mem_signs (negative : Bool) : signText negative ∈ [[], ['+'], ['-']] := by
  cases negative <;> decide

theorem isDigit_of_mem_replicate {n : Nat} {c : Char} (h : c ∈ List.replicate n '0') :
    c.isDigit := by
  rw [List.eq_of_mem_replicate h]
  rfl

theorem exponentText_plain {plus : List Char} (h : plus ∈ [[], ['+']]) (n : Int) :
    (exponentText plus n).Plain := by
  obtain ⟨hne, hdigits⟩ := plain_digits n.natAbs
  refine ⟨rfl, ?_, hne, hdigits⟩
  show (if n < 0 then ['-'] else plus) ∈ _
  split
  · decide
  · exact (List.subset_append_left [[], ['+']] [['-']]) h

theorem value_exponentText {plus : List Char} (h : plus ∈ [[], ['+']]) (n : Int) :
    (exponentText plus n).value = n := by
  have hplus : plus ≠ ['-'] := by
    rintro rfl
    exact absurd h (by decide)
  rw [ExponentText.value, exponentText]
  simp only [Nat.ofDigitChars_ten_toDigits]
  by_cases hneg : n < 0
  · rw [if_pos hneg, if_pos rfl]
    omega
  · rw [if_neg hneg, if_neg hplus]
    omega

/-- **A number is laid out in pieces that are read back.** -/
theorem layout_plain {plus : List Char} (h : plus ∈ [[], ['+']]) (negative : Bool) (value : Nat)
    (exponent : Int) : (layout plus negative value exponent).Plain := by
  obtain ⟨hne, hdigits⟩ := plain_digits value
  have hzeros : ∀ n, ∀ c ∈ List.replicate n '0', c.isDigit :=
    fun n c hc => isDigit_of_mem_replicate hc
  rw [layout]
  split
  · refine ⟨mem_signs negative, ?_, ?_, ?_, nofun⟩
    · simp [hne]
    · exact List.forall_mem_append.mpr ⟨hdigits, hzeros _⟩
    · rintro _ ⟨⟩
      simp
  · split
    · next hpoint =>
      refine ⟨mem_signs negative, ?_, ?_, ?_, nofun⟩
      · rw [Ne, List.take_eq_nil_iff, not_or]
        exact ⟨by omega, hne⟩
      · exact fun c hc => hdigits c (List.mem_of_mem_take hc)
      · rintro _ ⟨⟩ c hc
        exact hdigits c (List.mem_of_mem_drop hc)
    · split
      · refine ⟨mem_signs negative, List.cons_ne_nil _ _, ?_, ?_, nofun⟩
        · simp
        · rintro _ ⟨⟩
          exact List.forall_mem_append.mpr ⟨hzeros _, hdigits⟩
      · refine ⟨mem_signs negative, ?_, ?_, ?_, ?_⟩
        · rw [Ne, List.take_eq_nil_iff, not_or]
          exact ⟨Nat.one_ne_zero, hne⟩
        · exact fun c hc => hdigits c (List.mem_of_mem_take hc)
        · intro ds hds c hc
          split at hds
          · cases hds
          · cases hds
            exact hdigits c (List.mem_of_mem_drop hc)
        · rintro _ ⟨⟩
          exact exponentText_plain h _

/-- Zeros behind the digits are made up for by the power of ten. -/
theorem DecimalText.magnitude_eq {t : DecimalText} {value : Nat} (shift : Nat) {exponent : Int}
    (hdigits : Nat.ofDigitChars 10 (t.whole ++ t.fraction.getD []) 0 = 10 ^ shift * value)
    (hpower : (t.exponent.map ExponentText.value).getD 0 - (t.fraction.getD []).length =
      exponent - shift) : t.magnitude = value * 10 ^ exponent := by
  have hshift : (10 : ℚ) ^ shift * 10 ^ (exponent - shift) = 10 ^ exponent := by
    rw [← zpow_natCast, ← zpow_add₀ (by norm_num)]
    congr 1
    omega
  rw [magnitude, hdigits, hpower, Nat.cast_mul, Nat.cast_pow, Nat.cast_ofNat, mul_right_comm,
    hshift, mul_comm]

/-- **The pieces denote the decimal that is laid out.** -/
theorem magnitude_layout {plus : List Char} (h : plus ∈ [[], ['+']]) (negative : Bool) (value : Nat)
    (exponent : Int) : (layout plus negative value exponent).magnitude = value * 10 ^ exponent := by
  have hvalue : Nat.ofDigitChars 10 (Nat.toDigits 10 value) 0 = value :=
    Nat.ofDigitChars_ten_toDigits
  have hlength : 0 < (Nat.toDigits 10 value).length := List.length_pos_iff.mpr Nat.toDigits_ne_nil
  rw [layout]
  split
  · next hexponent =>
    obtain ⟨n, rfl⟩ := Int.eq_ofNat_of_zero_le hexponent.1
    refine DecimalText.magnitude_eq (n + 1) ?_ ?_
    · show Nat.ofDigitChars 10 (Nat.toDigits 10 value ++ List.replicate n '0' ++ ['0']) 0 = _
      rw [List.append_assoc, ← List.replicate_succ', Nat.ofDigitChars_append, hvalue,
        Nat.ofDigitChars_replicate_zero]
    · show (0 : ℤ) - ((1 : ℕ) : ℤ) = _
      omega
  · -- the digits are all there, and the point is where it belongs
    split
    · next hpoint =>
      refine DecimalText.magnitude_eq 0 ?_ ?_
      · simp only [Option.getD_some, List.take_append_drop, hvalue, Nat.pow_zero, Nat.one_mul]
      · simp only [Option.getD_some, Option.map_none, Option.getD_none, List.length_drop]
        omega
    · split
      · next hpoint =>
        refine DecimalText.magnitude_eq 0 ?_ ?_
        · show Nat.ofDigitChars 10 ('0' :: (List.replicate (-_).toNat '0' ++ _)) 0 = _
          rw [← List.cons_append, ← List.replicate_succ, Nat.ofDigitChars_append,
            Nat.ofDigitChars_replicate_zero, Nat.mul_zero, hvalue, Nat.pow_zero, Nat.one_mul]
        · simp only [Option.getD_some, Option.map_none, Option.getD_none, List.length_append,
            List.length_replicate]
          omega
      · have hfraction : ∀ digits : List Char,
            (if digits.isEmpty then none else some digits).getD [] = digits := by
          rintro (_ | _) <;> rfl
        refine DecimalText.magnitude_eq 0 ?_ ?_
        · simp only [hfraction, List.take_append_drop, hvalue, Nat.pow_zero, Nat.one_mul]
        · simp only [hfraction, Option.map_some, Option.getD_some, value_exponentText h,
            List.length_drop]
          omega

/-! ### Texts of different numbers -/

theorem signText_injective {b c : Bool} (h : signText b = signText c) : b = c := by
  revert h
  cases b <;> cases c <;> decide

theorem integerPieces_plain (z : Int) : (integerPieces z).Plain :=
  ⟨mem_signs _, (plain_digits _).1, (plain_digits _).2, nofun, nofun⟩

theorem integerPieces_injective {y z : Int} (h : integerPieces y = integerPieces z) : y = z := by
  rw [integerPieces, integerPieces, DecimalText.mk.injEq] at h
  obtain ⟨hsign, hdigits, -⟩ := h
  have hneg : y < 0 ↔ z < 0 := decide_eq_decide.mp (signText_injective hsign)
  have habs : y.natAbs = z.natAbs := by
    have hvalue := congrArg (Nat.ofDigitChars 10 · 0) hdigits
    simpa only [Nat.ofDigitChars_ten_toDigits] using hvalue
  omega

namespace Double

/-- The pieces of the text of a number. -/
def pieces (plus : String) (x : Double) : DecimalText :=
  if x.isZero then ⟨signText x.negative, ['0'], some ['0'], none⟩
  else layout plus.toList x.negative x.shortest.1 x.shortest.2

variable {plus : String} {x y : Double}

theorem toList_text_eq_chars (plus : String) (x : Double) :
    (x.text plus).toList = (x.pieces plus).chars := by
  rw [pieces]
  split
  · next h =>
    rw [text, if_pos h, signText]
    cases x.negative <;> rfl
  · next h => exact toList_text (Bool.eq_false_of_not_eq_true h) plus

theorem pieces_plain (h : plus.toList ∈ [[], ['+']]) (x : Double) : (x.pieces plus).Plain := by
  rw [pieces]
  split
  · refine ⟨mem_signs _, List.cons_ne_nil _ _, ?_, ?_, nofun⟩
    · simp
    · rintro _ ⟨⟩
      simp
  · exact layout_plain h _ _ _

/-- A number is not laid out as an integer. -/
theorem pieces_ne_integerPieces (plus : String) (x : Double) (z : Int) :
    x.pieces plus ≠ integerPieces z := by
  have hmarked : (x.pieces plus).fraction ≠ none ∨ (x.pieces plus).exponent ≠ none := by
    rw [pieces]
    split
    · exact .inl nofun
    · rw [layout]
      split
      · exact .inl nofun
      · split
        · exact .inl nofun
        · split
          · exact .inl nofun
          · exact .inr nofun
  intro h
  rw [h] at hmarked
  exact hmarked.elim (absurd rfl) (absurd rfl)

theorem sign_pieces (plus : String) (x : Double) : (x.pieces plus).sign = signText x.negative := by
  rw [pieces, layout]
  split
  · rfl
  · split
    · rfl
    · split
      · rfl
      · split <;> rfl

/-- **What is written lies in the interval of the number.** -/
theorem covers_pieces (h : plus.toList ∈ [[], ['+']]) (x : Double) :
    x.Covers (4 * (x.pieces plus).magnitude * (pow2 1074 : ℕ)) := by
  rw [pieces]
  split
  · next hzero =>
    have hmantissa : x.mantissa = 0 := of_decide_eq_true hzero
    have hdigits : Nat.ofDigitChars 10 ['0', '0'] 0 = 0 := by decide
    have hlow : x.low = 0 := by
      rw [low, hmantissa, Nat.mul_zero, Nat.zero_sub, Nat.zero_mul]
    rw [DecimalText.magnitude]
    simp only [Option.getD_some, List.singleton_append, hdigits, Nat.cast_zero, zero_mul, mul_zero]
    rw [Covers, if_pos (by rw [hmantissa]), hlow]
    exact ⟨by norm_num, Nat.cast_nonneg _⟩
  · next hzero =>
    have hreads := readsBack_iff.mp (readsBack_shortest (Bool.eq_false_of_not_eq_true hzero))
    rw [scaled, mul_assoc 4] at hreads
    rw [magnitude_layout h]
    exact hreads

/-- **Different numbers have different texts.** -/
theorem text_injective (h : plus.toList ∈ [[], ['+']]) (hxy : x.text plus = y.text plus) :
    x = y := by
  have hchars : (x.pieces plus).chars = (y.pieces plus).chars := by
    rw [← toList_text_eq_chars, ← toList_text_eq_chars, hxy]
  have hpieces := (pieces_plain h x).wellFormed.eq_of_chars (pieces_plain h y).wellFormed hchars
  have hx := covers_pieces h x
  rw [hpieces] at hx
  obtain ⟨hmantissa, hscale⟩ := mantissa_scale_of_units (units_eq_of_covers hx (covers_pieces h y))
  have hsign : signText x.negative = signText y.negative := by
    rw [← sign_pieces plus, ← sign_pieces plus, hpieces]
  have hnegative := signText_injective hsign
  cases x
  cases y
  cases hmantissa
  cases hscale
  cases hnegative
  rfl

end Double

end TerseSchema
