import Mathlib.Tactic.Linarith
import TerseSchema.Proofs.Casting
import TerseSchema.Proofs.Decimals

/-!
# Correct rounding

The quotient of two whole numbers is rounded once, to the nearest number.  Every number
has the interval of reals that round to it, and the magnitudes from halfway behind the
largest number on round to none.  Decimals are rounded as quotients, but for those whose
exponent alone says that they are beyond all numbers, or next to zero.

## Main definitions

* `Double.overflow` — the least magnitude that rounds to no number.
* `Double.Rounds` — what a magnitude with a sign is rounded to.

## Main results

* `nearest_bounds` — the nearest whole number is half a unit away at most, and on a tie it
  is even.
* `Double.ofRatio_rounds`, `Double.ofDecimal_rounds` — **quotients and decimals are rounded
  to the nearest number.**
* `Double.lt_overflow_iff` — a magnitude rounds to a number if it is below the overflow.
* `DecimalText.value_rounds` — decimal texts are rounded to the nearest number.
-/

namespace TerseSchema

/-- The nearest whole number is half a unit away at most, and less than that if it is odd. -/
theorem nearest_bounds (num : Nat) {den : Nat} (h : 0 < den) :
    2 * nearest num den * den ≤ 2 * num + den ∧ 2 * num ≤ 2 * nearest num den * den + den ∧
      (nearest num den % 2 = 1 → 2 * nearest num den * den < 2 * num + den ∧
        2 * num < 2 * nearest num den * den + den) := by
  have hnum : den * (num / den) + num % den = num := Nat.div_add_mod num den
  have hrest : num % den < den := Nat.mod_lt num h
  unfold nearest
  dsimp only
  generalize num / den = q at *
  generalize num % den = r at *
  have hq : 2 * q * den = 2 * (den * q) := by ring
  split
  · rw [hq]
    omega
  · have hnext : 2 * (q + 1) * den = 2 * (den * q) + 2 * den := by ring
    rw [hnext]
    omega

namespace Double

/-- The least magnitude that rounds to no number: halfway between the largest number and
the power of two behind it. -/
def overflow : ℚ := 2 ^ 1024 - 2 ^ 970

/-- What a magnitude with a sign is rounded to: to the number of this sign whose interval
it lies in, and from the overflow on to none. -/
def Rounds (negative : Bool) (q : ℚ) : Option Double → Prop
  | none => overflow ≤ q
  | some x => x.negative = negative ∧ x.Covers (4 * q * (pow2 1074 : ℕ))

variable {x : Double} {negative : Bool}

theorem cast_pow2 (n : Nat) : ((pow2 n : ℕ) : ℚ) = 2 ^ n := Nat.cast_pow 2 n

/-- Four times the overflow, in multiples of `2 ^ -1074`, lies as far behind the largest
mantissa as the one before it in front. -/
theorem four_mul_overflow :
    4 * overflow * (pow2 1074 : ℕ) = ((4 * pow2 53 - 2) * pow2 2045 : ℕ) := by
  have hsplit : (2 : ℚ) ^ 1024 = 2 ^ 54 * 2 ^ 970 := by rw [← pow_add]
  have hscale : (2 : ℚ) ^ 2045 = 2 * 2 ^ 970 * 2 ^ 1074 := by
    rw [mul_assoc, ← pow_add, ← pow_succ']
  have hlast : ((4 * pow2 53 - 2 : ℕ) : ℚ) = 2 * 2 ^ 54 - 2 := by norm_num
  rw [Nat.cast_mul, hlast, cast_pow2, cast_pow2, hscale, overflow, hsplit]
  generalize (2 : ℚ) ^ 970 = a
  generalize (2 : ℚ) ^ 1074 = b
  ring

/-! ### Up to the overflow -/

/-- **What rounds to a number lies below the overflow.** -/
theorem Covers.lt_overflow {q : ℚ} (h : x.Covers (4 * q * (pow2 1074 : ℕ))) : q < overflow := by
  have hmantissa := x.mantissa_lt
  have hscale : pow2 x.scale ≤ pow2 2045 := pow2_le_pow2 x.scale_le
  have hpos := pow2_pos 2045
  have hlt : 4 * q * (pow2 1074 : ℕ) < ((4 * pow2 53 - 2) * pow2 2045 : ℕ) := by
    by_cases hlast : x.mantissa = pow2 53 - 1
    · -- the largest mantissa is odd
      have hodd : x.mantissa % 2 = 1 := by
        rw [hlast]
        decide
      refine (h.lt hodd).2.trans_le ?_
      have hle : x.high ≤ (4 * pow2 53 - 2) * pow2 2045 := by
        unfold high
        exact Nat.mul_le_mul (by omega) hscale
      exact_mod_cast hle
    · refine h.le.2.trans_lt ?_
      have hlt : x.high < (4 * pow2 53 - 2) * pow2 2045 := by
        unfold high
        apply Nat.lt_of_le_of_lt (Nat.mul_le_mul_left _ hscale)
        exact Nat.mul_lt_mul_of_pos_right (by omega) hpos
      exact_mod_cast hlt
  rw [← four_mul_overflow] at hlt
  have hunit : (0 : ℚ) < (pow2 1074 : ℕ) := by exact_mod_cast pow2_pos 1074
  have hfour := lt_of_mul_lt_mul_right hlt hunit.le
  linarith

/-- **Only what is beyond all numbers rounds to none.** -/
theorem Rounds.eq_none_iff {q : ℚ} {rounded : Option Double} (h : Rounds negative q rounded) :
    rounded = none ↔ overflow ≤ q := by
  cases rounded with
  | none => exact iff_of_true rfl h
  | some x => exact iff_of_false nofun (not_le.mpr h.2.lt_overflow)

/-! ### Quotients -/

/-- Quotients are compared with the ends of an interval as whole numbers. -/
theorem covers_div_iff {num den : Nat} (h : 0 < den) : x.Covers (4 * num / den) ↔
    if x.mantissa % 2 = 0 then x.low * den ≤ 4 * num ∧ 4 * num ≤ x.high * den
    else x.low * den < 4 * num ∧ 4 * num < x.high * den := by
  have hden : (0 : ℚ) < den := by exact_mod_cast h
  unfold Covers
  rw [le_div_iff₀ hden, div_le_iff₀ hden, lt_div_iff₀ hden, div_lt_iff₀ hden]
  norm_cast

/-- A quotient rounds to the number that has the nearest whole number as its mantissa. -/
theorem covers_of_nearest {num den : Nat} (h : 0 < den)
    (hmantissa : x.mantissa = nearest num (den * pow2 x.scale))
    (hfull : x.scale ≠ 0 → pow2 52 * (den * pow2 x.scale) ≤ num) : x.Covers (4 * num / den) := by
  have hunit : 0 < den * pow2 x.scale := Nat.mul_pos h (pow2_pos _)
  obtain ⟨hlow, hhigh, hodd⟩ := nearest_bounds num hunit
  rw [← hmantissa] at hlow hhigh hodd
  rw [covers_div_iff h]
  have hends : ∀ n, n * pow2 x.scale * den = n * (den * pow2 x.scale) := by
    intro n
    ring
  unfold low high
  rw [hends, hends]
  generalize den * pow2 x.scale = unit at *
  have htwo : 2 * x.mantissa * unit = 2 * (x.mantissa * unit) := Nat.mul_assoc _ _ _
  have hfour : 4 * x.mantissa * unit = 4 * (x.mantissa * unit) := Nat.mul_assoc _ _ _
  rw [htwo] at hlow hhigh hodd
  rw [Nat.sub_mul, Nat.add_mul, hfour]
  by_cases hpower : x.mantissa = pow2 52 ∧ x.scale ≠ 0
  · -- a power of two is rounded down to, if at all, and is even
    have hfull := hfull hpower.2
    have heven : x.mantissa % 2 = 0 := by
      rw [hpower.1]
      decide
    rw [if_pos heven, if_pos hpower]
    rw [← hpower.1] at hfull
    omega
  · rw [if_neg hpower]
    split
    · omega
    · have hone : unit ≤ x.mantissa * unit := Nat.le_mul_of_pos_left unit (by omega)
      omega

/-- A quotient that is rounded up to a further bit rounds to the power of two. -/
theorem covers_of_carried {num den scale : Nat} (h : 0 < den) (hmantissa : x.mantissa = pow2 52)
    (hscale : x.scale = scale + 1) (hnearest : nearest num (den * pow2 scale) = pow2 53) :
    x.Covers (4 * num / den) := by
  have hunit : 0 < den * pow2 scale := Nat.mul_pos h (pow2_pos _)
  obtain ⟨hlow, hhigh, -⟩ := nearest_bounds num hunit
  rw [hnearest] at hlow hhigh
  have heven : x.mantissa % 2 = 0 := by
    rw [hmantissa]
    decide
  have hends : ∀ n, n * pow2 x.scale * den = 2 * n * (den * pow2 scale) := by
    intro n
    have htwo : pow2 1 = 2 := rfl
    rw [hscale, pow2_add, htwo]
    ring
  have h52 : pow2 52 = 4503599627370496 := rfl
  have h53 : pow2 53 = 9007199254740992 := rfl
  rw [covers_div_iff h, if_pos heven]
  unfold low high
  rw [hends, hends, hmantissa, if_pos ⟨rfl, by omega⟩]
  generalize den * pow2 scale = unit at *
  rw [h53] at hlow hhigh
  rw [h52]
  omega

/-- Rounding carries over to a power of two if it does at all. -/
theorem nearest_of_carried {num den : Nat}
    (h : pow2 53 ≤ nearest num (den * pow2 (scaleFor num den))) :
    nearest num (den * pow2 (scaleFor num den)) = pow2 53 := by
  have hle := nearest_le num (den * pow2 (scaleFor num den))
  have hlt := div_scaleFor_lt num den
  omega

/-- A quotient that is rounded at a scale beyond the greatest one, or carried over there, is
beyond all numbers. -/
theorem overflow_le {num den : Nat} (h : 0 < den)
    (hnum : (2 * pow2 53 - 1) * (den * pow2 2045) ≤ 2 * (num * pow2 1074)) :
    overflow ≤ num / den := by
  have hden : (0 : ℚ) < den := by exact_mod_cast h
  have htop := four_mul_overflow
  have hpos := pow2_pos 1074
  generalize pow2 1074 = unit at *
  generalize pow2 2045 = top at *
  have hunit : (0 : ℚ) < 4 * unit := by positivity
  have hlast : 4 * pow2 53 - 2 = 2 * (2 * pow2 53 - 1) := rfl
  rw [le_div_iff₀ hden]
  apply le_of_mul_le_mul_right _ hunit
  calc overflow * den * (4 * unit)
      = 4 * overflow * unit * den := by ring
    _ = ((4 * pow2 53 - 2) * top * den : ℕ) := by rw [htop, Nat.cast_mul _ den]
    _ = (2 * ((2 * pow2 53 - 1) * (den * top)) : ℕ) := by
        rw [hlast]
        congr 1
        ring
    _ ≤ (2 * (2 * (num * unit)) : ℕ) := Nat.cast_le.mpr (Nat.mul_le_mul_left 2 hnum)
    _ = num * (4 * unit) := by
        push_cast
        ring

/-- **Quotients are rounded to the nearest number.** -/
theorem ofRatio_rounds (negative : Bool) (num : Nat) {den : Nat} (h : 0 < den) :
    Rounds negative (num / den) (ofRatio negative num den) := by
  have hunits : 4 * ((num : ℚ) / den) * (pow2 1074 : ℕ) = 4 * (num * pow2 1074 : ℕ) / den := by
    push_cast
    ring
  have hfull := @le_div_scaleFor (num * pow2 1074) den
  have hunit := fun scale => Nat.mul_pos h (pow2_pos scale)
  unfold ofRatio
  dsimp only
  split
  · next hscale =>
    split
    · refine ⟨rfl, ?_⟩
      rw [hunits]
      apply covers_of_nearest h rfl
      intro hne
      exact (Nat.le_div_iff_mul_le (hunit _)).mp (hfull hne)
    · next hcarry =>
      have hnearest := nearest_of_carried (Nat.le_of_not_lt hcarry)
      split
      · refine ⟨rfl, ?_⟩
        rw [hunits]
        exact covers_of_carried h rfl rfl hnearest
      · next hlast =>
        -- the greatest scale, and the mantissa is carried over
        have hgreatest : scaleFor (num * pow2 1074) den = 2045 := by omega
        rw [hgreatest] at hnearest
        have hlow := (nearest_bounds (num * pow2 1074) (hunit 2045)).1
        rw [hnearest] at hlow
        apply overflow_le h
        rw [Nat.sub_mul]
        omega
  · next hscale =>
    -- with the greatest scale there are too many bits
    have hbits := (Nat.le_div_iff_mul_le (hunit _)).mp (hfull (by omega))
    have hscale : pow2 (2045 + 1) ≤ pow2 (scaleFor (num * pow2 1074) den) :=
      pow2_le_pow2 (by omega)
    have hle := Nat.le_trans (Nat.mul_le_mul_left _ (Nat.mul_le_mul_left den hscale)) hbits
    rw [Nat.mul_left_comm, units_carried, Nat.mul_left_comm] at hle
    apply overflow_le h
    rw [Nat.sub_mul, Nat.mul_assoc]
    omega

/-- **Whole numbers are rounded to the nearest number.** -/
theorem ofNat_rounds (negative : Bool) (n : Nat) : Rounds negative n (ofNat negative n) := by
  have h := ofRatio_rounds negative n Nat.one_pos
  rwa [Nat.cast_one, div_one] at h

/-- **Below the overflow everything rounds to a number.** -/
theorem lt_overflow_iff {q : ℚ} (h : 0 ≤ q) :
    q < overflow ↔ ∃ x : Double, x.Covers (4 * q * (pow2 1074 : ℕ)) := by
  constructor
  · intro hlt
    have hnum : ((q.num.natAbs : ℕ) : ℚ) = q.num := by
      rw [Nat.cast_natAbs, abs_of_nonneg (Rat.num_nonneg.mpr h)]
    have hrounds := ofRatio_rounds false q.num.natAbs q.den_pos
    rw [hnum, Rat.num_div_den] at hrounds
    cases hx : ofRatio false q.num.natAbs q.den with
    | none => exact absurd (hrounds.eq_none_iff.mp hx) (not_le.mpr hlt)
    | some x =>
      rw [hx] at hrounds
      exact ⟨x, hrounds.2⟩
  · rintro ⟨x, hx⟩
    exact hx.lt_overflow

/-! ### Decimals -/

/-- Half of the least positive number and all below it round to zero. -/
theorem covers_zero {q : ℚ} (h : 0 ≤ q) (hle : q ≤ 2) : (zero negative).Covers q := by
  have hlow : (zero negative).low = 0 := rfl
  have hhigh : (zero negative).high = 2 := rfl
  have heven : (zero negative).mantissa % 2 = 0 := rfl
  unfold Covers
  rw [if_pos heven, hlow, hhigh]
  exact ⟨by exact_mod_cast h, by exact_mod_cast hle⟩

/-- A decimal with so great an exponent is beyond all numbers. -/
theorem overflow_le_of_exponent {digits : Nat} {exponent : Int} (hdigits : digits ≠ 0)
    (h : 310 ≤ exponent) : overflow ≤ digits * 10 ^ exponent := by
  have hpower : pow2 1024 ≤ pow10 310 := by decide +kernel
  have hone : (1 : ℚ) ≤ digits := by exact_mod_cast Nat.one_le_iff_ne_zero.mpr hdigits
  have hlast : (0 : ℚ) ≤ 2 ^ 970 := pow_nonneg zero_le_two 970
  calc overflow ≤ (pow2 1024 : ℕ) := by
        rw [overflow, cast_pow2]
        exact sub_le_self _ hlast
    _ ≤ (pow10 310 : ℕ) := Nat.cast_le.mpr hpower
    _ = 10 ^ 310 := cast_pow10 310
    _ = (10 : ℚ) ^ (310 : ℤ) := (zpow_natCast 10 310).symm
    _ ≤ 10 ^ exponent := zpow_le_zpow_right₀ (by norm_num) h
    _ ≤ digits * 10 ^ exponent := le_mul_of_one_le_left (by positivity) hone

/-- A decimal with so small an exponent is next to zero. -/
theorem le_two_of_exponent {digits : Nat} {exponent : Int}
    (h : (digits.log2 : Int) + 1081 ≤ -(3 * exponent)) :
    4 * (digits * (10 : ℚ) ^ exponent) * (pow2 1074 : ℕ) ≤ 2 := by
  obtain ⟨n, rfl⟩ : ∃ n : ℕ, exponent = -n := ⟨(-exponent).toNat, by omega⟩
  have hdigits : digits ≤ pow2 (digits.log2 + 1) := (lt_pow2_log2 digits).le
  have hten : pow2 (3 * n) ≤ pow10 n := by
    have height : pow2 (3 * n) = 8 ^ n := Nat.pow_mul 2 3 n
    rw [height]
    exact Nat.pow_le_pow_left (by decide) n
  have hpower : digits * (pow2 2 * pow2 1074) ≤ pow10 n :=
    calc digits * (pow2 2 * pow2 1074)
        ≤ pow2 (digits.log2 + 1) * (pow2 2 * pow2 1074) := Nat.mul_le_mul_right _ hdigits
      _ = pow2 (digits.log2 + 1 + (2 + 1074)) := by rw [pow2_add _ (2 + 1074), pow2_add 2]
      _ ≤ pow2 (3 * n) := pow2_le_pow2 (by omega)
      _ ≤ pow10 n := hten
  have hpos : (0 : ℚ) < pow10 n := by exact_mod_cast Nat.pow_pos (by decide)
  rw [zpow_neg, zpow_natCast, ← cast_pow10]
  generalize pow2 1074 = unit at *
  generalize pow10 n = ten at *
  calc 4 * (digits * (ten : ℚ)⁻¹) * unit = (digits * (pow2 2 * unit) : ℕ) / ten := by
        have hfour : pow2 2 = 4 := rfl
        rw [hfour]
        push_cast
        ring
    _ ≤ ten / ten := by
        apply div_le_div_of_nonneg_right _ hpos.le
        exact Nat.cast_le.mpr hpower
    _ = 1 := div_self hpos.ne'
    _ ≤ 2 := by norm_num

/-- **Decimals are rounded to the nearest number.** -/
theorem ofDecimal_rounds (negative : Bool) (digits : Nat) (exponent : Int) :
    Rounds negative (digits * 10 ^ exponent) (ofDecimal negative digits exponent) := by
  have hpos : ∀ unit : ℕ, 0 ≤ 4 * ((digits : ℚ) * 10 ^ exponent) * unit := by
    intro unit
    positivity
  unfold ofDecimal
  split
  · next hzero =>
    refine ⟨rfl, covers_zero (hpos _) ?_⟩
    rw [hzero, Nat.cast_zero, zero_mul, mul_zero, zero_mul]
    exact zero_le_two
  · next hdigits =>
    split
    · next hgreat => exact overflow_le_of_exponent hdigits hgreat
    · split
      · next hsmall => exact ⟨rfl, covers_zero (hpos _) (le_two_of_exponent hsmall)⟩
      · have hden : 0 < pow10 (-exponent).toNat := Nat.pow_pos (by decide)
        have hquotient : ((digits * pow10 exponent.toNat : ℕ) : ℚ) / (pow10 (-exponent).toNat : ℕ) =
            digits * 10 ^ exponent := by
          rw [div_eq_iff (by exact_mod_cast hden.ne'), mul_assoc, zpow_mul_pow10, Nat.cast_mul]
        rw [← hquotient]
        exact ofRatio_rounds negative _ hden

end Double

/-- **The text of a decimal is rounded to the nearest number.** -/
theorem DecimalText.value_rounds (t : DecimalText) :
    Double.Rounds (t.sign = ['-']) t.magnitude t.value :=
  Double.ofDecimal_rounds _ _ _

end TerseSchema
