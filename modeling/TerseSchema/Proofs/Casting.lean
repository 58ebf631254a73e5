import TerseSchema.Types.Registry

/-!
# Defaults that are cast

A default that casts to a value at all casts to a value of its own type.  What
takes an argument is that an integer beyond 64 bits is rounded to a double and
stays whole: either the double has no fractional bits left, or nothing was rounded.

## Main results

* `Double.isWhole_of_ofNat` — **a natural number is rounded to a whole number.**
* `Primitive.check_cast`, `Primitive.check_sample` — casts and samples are of their
  kind.
-/

namespace TerseSchema

/-! ### Rounding whole numbers -/

theorem pow2_dvd_pow2 {m n : Nat} (h : m ≤ n) : pow2 m ∣ pow2 n := Nat.pow_dvd_pow 2 h

/-- A whole quotient is its own nearest number. -/
theorem nearest_of_dvd {num den : Nat} (h : den ∣ num) (hpos : 0 < den) :
    nearest num den = num / den := by
  have hmod : num % den = 0 := Nat.mod_eq_zero_of_dvd h
  simp only [nearest, hmod]
  rw [if_pos (.inl hpos)]

namespace Double

/-- Carrying over into another bit keeps the magnitude. -/
theorem units_carried (scale : Nat) : pow2 52 * pow2 (scale + 1) = pow2 53 * pow2 scale := by
  rw [← pow2_add, ← pow2_add]
  congr 1
  omega

/-- The magnitude of a rounded quotient, whether or not rounding has carried over
into another bit. -/
theorem units_of_ofRatio {negative : Bool} {num den : Nat} {x : Double}
    (h : ofRatio negative num den = some x) :
    x.units = nearest (num * pow2 1074) (den * pow2 (scaleFor (num * pow2 1074) den)) *
      pow2 (scaleFor (num * pow2 1074) den) := by
  unfold ofRatio at h
  dsimp only at h
  split at h
  · split at h
    · rw [← Option.some.inj h, units]
    · next hcarry =>
      have hle := nearest_le (num * pow2 1074) (den * pow2 (scaleFor (num * pow2 1074) den))
      have hlt := div_scaleFor_lt (num * pow2 1074) den
      -- rounding up can only have reached the next power of two
      have hfull := Nat.le_antisymm (Nat.le_trans hle hlt) (Nat.le_of_not_lt hcarry)
      split at h
      · rw [← Option.some.inj h, units, hfull]
        exact units_carried _
      · cases h
  · cases h

/-- **A natural number is rounded to a whole number.** -/
theorem isWhole_of_ofNat {negative : Bool} {n : Nat} {x : Double}
    (h : ofNat negative n = some x) : x.isWhole = true := by
  have hunits := units_of_ofRatio h
  generalize scaleFor (n * pow2 1074) 1 = scale at hunits
  rw [isWhole, decide_eq_true_iff, hunits]
  refine Nat.mod_eq_zero_of_dvd ?_
  rcases Nat.le_total 1074 scale with hle | hle
  · -- the last bit kept is worth a whole number
    exact Nat.dvd_mul_left_of_dvd (pow2_dvd_pow2 hle) _
  · -- nothing is rounded
    have hdvd : pow2 scale ∣ n * pow2 1074 := Nat.dvd_mul_left_of_dvd (pow2_dvd_pow2 hle) _
    rw [Nat.one_mul, nearest_of_dvd hdvd (pow2_pos _), Nat.div_mul_cancel hdvd]
    exact Nat.dvd_mul_left _ _

end Double

namespace Primitive

/-- A whole double is of the kind of integers, as it is or as an integer. -/
theorem check_integer_ofDouble {x : Double} (h : x.isWhole = true) :
    integer.check (ofDouble x) = true := by
  rw [ofDouble]
  split
  · rfl
  · exact h

theorem check_number_ofDouble (x : Double) : number.check (ofDouble x) = true := by
  rw [ofDouble]
  split <;> rfl

/-- What a text is cast to as an integer. -/
theorem castInteger_cases (text : List Char) :
    castInteger text = .null ∨ (∃ z, castInteger text = .int z) ∨
      ∃ negative n x, Double.ofNat negative n = some x ∧ castInteger text = ofDouble x := by
  rw [castInteger]
  cases scanInteger text with
  | none => exact .inl rfl
  | some scanned =>
    obtain ⟨negative, digits⟩ := scanned
    dsimp only
    generalize (if negative then _ else _ : Int) = z
    by_cases hz : -(pow2 63 : Int) ≤ z ∧ z < pow2 63
    · exact .inr (.inl ⟨z, if_pos hz⟩)
    · rw [if_neg hz]
      cases hx : Double.ofNat negative (Nat.ofDigitChars 10 digits 0) with
      | none => exact .inl rfl
      | some x => exact .inr (.inr ⟨negative, _, x, hx, rfl⟩)

/-- What a text is cast to as a number. -/
theorem castNumber_cases (text : List Char) :
    castNumber text = .null ∨ ∃ x, castNumber text = ofDouble x := by
  rw [castNumber]
  cases (DecimalText.scan (trimStart text)).bind DecimalText.value with
  | none => exact .inl rfl
  | some x => exact .inr ⟨x, rfl⟩

/-- What a default is cast to is of its kind, unless it is nothing. -/
theorem check_cast {kind : Primitive} (hkind : kind ≠ .function) {text : String}
    (h : kind.cast text ≠ .null) : kind.check (kind.cast text) = true := by
  cases kind with
  | string => rfl
  | boolean => rfl
  | function => exact absurd rfl hkind
  | number =>
    obtain hnull | ⟨x, hx⟩ := castNumber_cases text.toList
    · exact absurd hnull h
    · rw [cast, hx]
      exact check_number_ofDouble x
  | integer =>
    obtain hnull | ⟨z, hz⟩ | ⟨negative, n, x, hx, hcast⟩ := castInteger_cases text.toList
    · exact absurd hnull h
    · rw [cast, hz]
      rfl
    · rw [cast, hcast]
      exact check_integer_ofDouble (Double.isWhole_of_ofNat hx)

/-- The sample of a kind is of the kind. -/
theorem check_sample {kind : Primitive} (hkind : kind ≠ .function) :
    kind.check kind.sample = true ∧ kind.sample ≠ .null := by
  cases kind <;> first | exact ⟨rfl, by simp [sample]⟩ | exact absurd rfl hkind

end Primitive

end TerseSchema
