import TerseSchema.Proofs.Rounding

/-!
# Which defaults are cast to nothing

A default that is cast to a value at all is cast to one of its kind.  Strings and truth
values are made of every text, while an integer or a number has to stand at the head of
the text and not be beyond all doubles.

## Main results

* `Primitive.castInteger_eq_null_iff`, `Primitive.castNumber_eq_null_iff` — when there is no
  integer, and no number.
* `Primitive.cast_null_or_check` — **the casts agree with the checks.**
-/

namespace TerseSchema

namespace Primitive

theorem ofDouble_ne_null (x : Double) : ofDouble x ≠ .null := by
  unfold ofDouble
  split
  · exact nofun
  · exact nofun

/-- A number is cast to a value if it is rounded to a number at all. -/
theorem getD_ofDouble_eq_null_iff {rounded : Option Double} :
    (rounded.map ofDouble).getD .null = .null ↔ rounded = none := by
  cases rounded with
  | none => exact iff_of_true rfl rfl
  | some x => exact iff_of_false (ofDouble_ne_null x) nofun

/-- The integers of 64 bits are far below the overflow. -/
theorem lt_overflow_of_le {n : Nat} (h : n ≤ pow2 64) : (n : ℚ) < Double.overflow := by
  have hle : (n : ℚ) ≤ (pow2 64 : ℕ) := by exact_mod_cast h
  have hlt : ((pow2 64 : ℕ) : ℚ) < Double.overflow := by
    have hsplit : (2 : ℚ) ^ 1024 = 2 ^ 54 * 2 ^ 970 := by rw [← pow_add]
    have hpow : (2 : ℚ) ^ 64 ≤ 2 ^ 970 := pow_le_pow_right₀ one_le_two (by omega)
    rw [Double.cast_pow2, Double.overflow, hsplit]
    generalize (2 : ℚ) ^ 970 = a at hpow
    norm_num at hpow ⊢
    linarith
  exact hle.trans_lt hlt

/-- **The cast to an integer fails without a digit behind white space and a sign**, and for
digits beyond all doubles. -/
theorem castInteger_eq_null_iff (text : List Char) :
    castInteger text = .null ↔
      (¬ ∃ sign digits, LeadingInteger (trimStart text) sign digits) ∨
      ∃ sign digits, LeadingInteger (trimStart text) sign digits ∧
        Double.overflow ≤ (Nat.ofDigitChars 10 digits 0 : ℕ) := by
  rw [← scanInteger_eq_none_iff]
  cases hscan : scanInteger text with
  | none =>
    have hnull : castInteger text = .null := by rw [castInteger, hscan]
    exact iff_of_true hnull (.inl rfl)
  | some scanned =>
    obtain ⟨negative, digits⟩ := scanned
    obtain ⟨sign, hleading, -⟩ := scanInteger_eq_some_iff.mp hscan
    -- the digits at the head of the text are these ones
    have hdigits : (∃ sign digits, LeadingInteger (trimStart text) sign digits ∧
        Double.overflow ≤ (Nat.ofDigitChars 10 digits 0 : ℕ)) ↔
        Double.overflow ≤ (Nat.ofDigitChars 10 digits 0 : ℕ) := by
      constructor
      · rintro ⟨sign', digits', hleading', hle⟩
        have hscan' := scanInteger_eq_some_iff.mpr ⟨sign', hleading', rfl⟩
        rw [hscan] at hscan'
        obtain ⟨-, rfl⟩ := Prod.mk.inj (Option.some.inj hscan')
        exact hle
      · intro hle
        exact ⟨sign, digits, hleading, hle⟩
    rw [hdigits, castInteger, hscan]
    dsimp only
    generalize hmagnitude : Nat.ofDigitChars 10 digits 0 = magnitude
    by_cases hz : -(pow2 63 : Int) ≤ (if negative then -(magnitude : Int) else magnitude) ∧
        (if negative then -(magnitude : Int) else (magnitude : Int)) < pow2 63
    · -- what has 64 signed bits is not rounded, and is not beyond all doubles either
      have hbits : pow2 63 ≤ pow2 64 := pow2_le_pow2 (by omega)
      have hle : magnitude ≤ pow2 64 := by
        cases negative with
        | false =>
          rw [if_neg Bool.false_ne_true] at hz
          omega
        | true =>
          rw [if_pos rfl] at hz
          omega
      rw [if_pos hz]
      simp [lt_overflow_of_le hle]
    · rw [if_neg hz, getD_ofDouble_eq_null_iff,
        (Double.ofNat_rounds negative magnitude).eq_none_iff]
      simp

/-- **The cast to a number fails without a decimal number behind white space**, and if the
longest one is beyond all doubles. -/
theorem castNumber_eq_null_iff (text : List Char) :
    castNumber text = .null ↔
      (¬ ∃ t : DecimalText, t.WellFormed ∧ t.chars <+: trimStart text) ∨
      ∃ t : DecimalText, t.IsLongest (trimStart text) ∧ Double.overflow ≤ t.magnitude := by
  rw [← DecimalText.scan_eq_none_iff, castNumber, getD_ofDouble_eq_null_iff]
  simp only [← DecimalText.scan_eq_some_iff]
  cases hscan : DecimalText.scan (trimStart text) with
  | none => simp
  | some t =>
    rw [Option.bind_some, t.value_rounds.eq_none_iff]
    simp

/-- **The casts agree with the checks.**  But for functions, a text is cast to nothing or to
a value of the kind.  A text is always cast to a string and to a truth value; it is cast to
no integer only if no digit stands behind leading white space and a sign, or the digits are
beyond all doubles; and to no number only if no decimal number stands behind leading white
space, or the longest one is beyond all doubles. -/
theorem cast_null_or_check (text : String) :
    (∀ kind : Primitive,
      (kind.cast text = .null ∨ kind.check (kind.cast text) = true) ↔ kind ≠ .function) ∧
    Primitive.string.cast text ≠ .null ∧
    Primitive.boolean.cast text ≠ .null ∧
    (Primitive.integer.cast text = .null ↔
      (¬ ∃ sign digits, LeadingInteger (trimStart text.toList) sign digits) ∨
      ∃ sign digits, LeadingInteger (trimStart text.toList) sign digits ∧
        Double.overflow ≤ (Nat.ofDigitChars 10 digits 0 : ℕ)) ∧
    (Primitive.number.cast text = .null ↔
      (¬ ∃ t : DecimalText, t.WellFormed ∧ t.chars <+: trimStart text.toList) ∨
      ∃ t : DecimalText, t.IsLongest (trimStart text.toList) ∧ Double.overflow ≤ t.magnitude) := by
  refine ⟨?_, nofun, nofun, castInteger_eq_null_iff _, castNumber_eq_null_iff _⟩
  intro kind
  constructor
  · rintro h rfl
    rcases h with hnull | hcheck
    · cases hnull
    · cases hcheck
  · intro hkind
    by_cases hnull : kind.cast text = .null
    · exact .inl hnull
    · exact .inr (check_cast hkind hnull)

end Primitive

end TerseSchema
