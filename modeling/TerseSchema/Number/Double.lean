import TerseSchema.Number.Power

/-!
# Finite binary64 numbers

A `Double` is a sign, a whole mantissa and a scale, and stands for
`± mantissa * 2 ^ scale / 2 ^ 1074`: every finite binary64 number is a whole
multiple of the least positive one, `2 ^ -1074`.  The proof fields leave one
representation for each number, apart from the two signs of zero.  All
operations compute the exact quotient of two naturals and round it once, to the
nearest number, a tie going to the even mantissa.

## Main definitions

* `Double` — a finite binary64 number; `Double.units x` is its magnitude in
  multiples of `2 ^ -1074`.
* `Double.ofBits`, `Double.bits` — the interchange word and back.
* `Double.ofRatio` — the number nearest to a quotient, none when it lies beyond
  the largest finite one.
* `Double.ofDecimal` — the number nearest to `digits * 10 ^ exponent`.
* `Double.mul`, `Double.div` — product and quotient, rounded once.
* `Double.isWhole`, `Double.truncate` — the test for a whole number, and its
  value as an integer.
* `Double.same` — numeric equality, for which both zeros are equal.
-/

namespace TerseSchema

/-- The whole number nearest to `num / den`, the even one on a tie. -/
def nearest (num den : Nat) : Nat :=
  let q := num / den
  let r := num % den
  if 2 * r < den ∨ (2 * r = den ∧ q % 2 = 0) then q else q + 1

/-- Rounding moves a quotient up by at most one. -/
theorem nearest_le (num den : Nat) : nearest num den ≤ num / den + 1 := by
  unfold nearest; grind

/-- Rounding never moves a quotient below its whole part. -/
theorem le_nearest (num den : Nat) : num / den ≤ nearest num den := by
  unfold nearest; grind

/-- A finite binary64 number: `± mantissa * 2 ^ scale / 2 ^ 1074`. -/
structure Double where
  /-- The sign; both zeros exist. -/
  negative : Bool
  /-- The significant bits, as a whole number. -/
  mantissa : Nat
  /-- The power of two, counted from the least positive number. -/
  scale : Nat
  /-- There are 53 significant bits. -/
  mantissa_lt : mantissa < pow2 53
  /-- The largest power of two of the format. -/
  scale_le : scale ≤ 2045
  /-- Only the least power of two leaves the leading bit open. -/
  leading : scale = 0 ∨ pow2 52 ≤ mantissa
  deriving DecidableEq

namespace Double

/-- The magnitude in multiples of `2 ^ -1074`. -/
def units (x : Double) : Nat := x.mantissa * pow2 x.scale

/-- Zero with a sign. -/
def zero (negative : Bool) : Double :=
  ⟨negative, 0, 0, by decide, by decide, .inl rfl⟩

/-- A number with the opposite sign. -/
def neg (x : Double) : Double := { x with negative := !x.negative }

/-! ### The interchange word -/

/-- The number an interchange word holds; none for infinities and for words that
hold no number. -/
def ofBits (word : UInt64) : Option Double :=
  let exponent := word.toNat / pow2 52 % pow2 11
  let fraction := word.toNat % pow2 52
  let negative := decide (pow2 63 ≤ word.toNat)
  have hf : fraction < pow2 52 := Nat.mod_lt _ (by decide)
  have h53 : pow2 53 = 2 * pow2 52 := rfl
  if h : exponent = 0 then
    some ⟨negative, fraction, 0, by omega, by omega, .inl rfl⟩
  else if h' : exponent = 2047 then none
  else
    have he : exponent < 2048 := Nat.mod_lt _ (by decide)
    some ⟨negative, pow2 52 + fraction, exponent - 1, by omega, by omega, .inr (by omega)⟩

/-- The interchange word of a number.  The leading bit of the mantissa, when it
is set, is what raises the exponent field above the scale. -/
def bits (x : Double) : UInt64 :=
  UInt64.ofNat ((if x.negative then pow2 63 else 0) + x.scale * pow2 52 + x.mantissa)

/-! ### Rounding -/

/-- The scale at which the quotient of `num` units by `den` keeps 53 bits. -/
def scaleFor (num den : Nat) : Nat := (num / den).log2 - 52

/-- At the chosen scale a quotient has at most 53 bits. -/
theorem div_scaleFor_lt (num den : Nat) : num / (den * pow2 (scaleFor num den)) < pow2 53 := by
  rw [← Nat.div_div_eq_div_mul, Nat.div_lt_iff_lt_mul (pow2_pos _), ← pow2_add]
  refine Nat.lt_of_lt_of_le (lt_pow2_log2 _) (pow2_le_pow2 ?_)
  unfold scaleFor
  omega

/-- Above the least scale a quotient has at least 53 bits. -/
theorem le_div_scaleFor {num den : Nat} (h : scaleFor num den ≠ 0) :
    pow2 52 ≤ num / (den * pow2 (scaleFor num den)) := by
  have hpos : num / den ≠ 0 := by
    intro h0
    simp [scaleFor, h0] at h
  rw [← Nat.div_div_eq_div_mul, Nat.le_div_iff_mul_le (pow2_pos _), ← pow2_add]
  refine Nat.le_trans (pow2_le_pow2 ?_) (pow2_log2_le hpos)
  unfold scaleFor at h ⊢
  omega

/-- The number nearest to `± num / den`, ties to the even mantissa; none when it
lies beyond the largest finite number. -/
def ofRatio (negative : Bool) (num den : Nat) : Option Double :=
  let scaled := num * pow2 1074
  let scale := scaleFor scaled den
  let mantissa := nearest scaled (den * pow2 scale)
  if hs : scale ≤ 2045 then
    if hm : mantissa < pow2 53 then
      some ⟨negative, mantissa, scale, hm, hs, by
        by_cases h : scale = 0
        · exact .inl h
        · exact .inr (Nat.le_trans (le_div_scaleFor h) (le_nearest _ _))⟩
    else if hs' : scale + 1 ≤ 2045 then
      -- the mantissa was rounded up to `pow2 53`
      some ⟨negative, pow2 52, scale + 1, by decide, hs', .inr (Nat.le_refl _)⟩
    else none
  else none

/-- The number nearest to a whole number. -/
def ofNat (negative : Bool) (n : Nat) : Option Double := ofRatio negative n 1

/-- The number nearest to `± digits * 10 ^ exponent`, ties to even; none when it
lies beyond the largest finite number.  The first two bounds answer without
computing a power when the exponent alone decides. -/
def ofDecimal (negative : Bool) (digits : Nat) (exponent : Int) : Option Double :=
  if digits = 0 then some (zero negative)
  else if 310 ≤ exponent then none
  else if (digits.log2 : Int) + 1081 ≤ -(3 * exponent) then some (zero negative)
  else ofRatio negative (digits * pow10 exponent.toNat) ((pow10 (-exponent).toNat))

/-- The product, rounded once. -/
def mul (x y : Double) : Option Double :=
  ofRatio (x.negative != y.negative) (x.units * y.units) (pow2 2148)

/-- The quotient by a non-zero number, rounded once. -/
def div (x y : Double) : Option Double :=
  ofRatio (x.negative != y.negative) x.units y.units

/-! ### Whole numbers -/

/-- Whether a number has no fractional part. -/
def isWhole (x : Double) : Bool := x.units % pow2 1074 = 0

/-- The integer part, towards zero. -/
def truncate (x : Double) : Int :=
  let magnitude : Nat := x.units / pow2 1074
  if x.negative then -(magnitude : Int) else (magnitude : Int)

/-! ### Equality -/

/-- Whether a number is one of the two zeros. -/
def isZero (x : Double) : Bool := x.mantissa = 0

/-- Numeric equality: the two zeros are equal, and otherwise only a number and
itself. -/
def same (x y : Double) : Bool := (x.isZero && y.isZero) || x = y

end Double

end TerseSchema
