import Mathlib.Data.Nat.Digits.Defs
import TerseSchema.Proofs.Defaults
import TerseSchema.Proofs.Inference
import TerseSchema.Proofs.Literals
import TerseSchema.Session

/-!
# Which integer defaults are exact

A default of the type of integers is read from its digits.  An integer of 64 signed bits is
kept as it is.  One beyond them is rounded to a double, although documents keep the
integers up to the greatest of 64 unsigned bits, and the type accepts them.

## Main definitions

* `SpellsInteger` — the ways to spell an integer at the head of a text.

## Main results

* `Primitive.castInteger_of_spells` — what a spelling is cast to.
* `Session.shapeDefault_integer` — an integer as the default of a schema.
* `integer_default_exact_iff` — **an integer default is exact if and only if it has 64 signed
  bits.**
* `integer_default_is_rounded` — a default that documents keep, but the cast does not.
-/

namespace TerseSchema

/-! ### Spellings of an integer -/

/-- A text spells an integer at its head: behind white space, with a minus sign or perhaps a
plus sign, with zeros in front of the digits, and with anything but a digit behind them. -/
def SpellsInteger (z : Int) (text : List Char) : Prop :=
  ∃ blanks sign zeros rest,
    text = blanks ++ (sign ++ (List.replicate zeros '0' ++ Nat.toDigits 10 z.natAbs ++ rest)) ∧
      (∀ c ∈ blanks, isBlank c = true) ∧ sign ∈ (if z < 0 then [['-']] else [[], ['+']]) ∧
      ∀ c ∈ rest.head?, c.isDigit = false

variable {z : Int} {text : List Char}

/-- Neither a sign nor a digit is white space. -/
theorem trimStart_append {blanks sign digits rest : List Char}
    (hblanks : ∀ c ∈ blanks, isBlank c = true) (hsign : sign ∈ [[], ['+'], ['-']])
    (hne : digits ≠ []) (hdigits : ∀ c ∈ digits, c.isDigit) :
    trimStart (blanks ++ (sign ++ (digits ++ rest))) = sign ++ (digits ++ rest) := by
  obtain ⟨c, digits, rfl⟩ := List.exists_cons_of_ne_nil hne
  have hc : isBlank c = false := isBlank_of_isDigit (hdigits c List.mem_cons_self)
  unfold trimStart
  rw [List.dropWhile_append_of_pos hblanks]
  simp only [List.mem_cons, List.not_mem_nil, or_false] at hsign
  rcases hsign with rfl | rfl | rfl
  · exact List.dropWhile_cons_of_neg (by simp [hc])
  · exact List.dropWhile_cons_of_neg (by decide)
  · exact List.dropWhile_cons_of_neg (by decide)

/-- **A spelling is scanned for the sign and the magnitude of the integer.** -/
theorem SpellsInteger.scanInteger (h : SpellsInteger z text) : ∃ digits,
    scanInteger text = some (decide (z < 0), digits) ∧
      Nat.ofDigitChars 10 digits 0 = z.natAbs := by
  obtain ⟨blanks, sign, zeros, rest, rfl, hblanks, hsign, hrest⟩ := h
  obtain ⟨hne, htoDigits⟩ := plain_digits z.natAbs
  have hdigits : ∀ c ∈ List.replicate zeros '0' ++ Nat.toDigits 10 z.natAbs, c.isDigit :=
    List.forall_mem_append.mpr ⟨fun c hc => isDigit_of_mem_replicate hc, htoDigits⟩
  have hsigns : sign ∈ [[], ['+'], ['-']] ∧ (z < 0 ↔ sign = ['-']) := by
    split at hsign
    · next hz =>
      obtain rfl := List.mem_singleton.mp hsign
      exact ⟨by decide, iff_of_true hz rfl⟩
    · next hz =>
      simp only [List.mem_cons, List.not_mem_nil, or_false] at hsign
      rcases hsign with rfl | rfl
      · exact ⟨by decide, iff_of_false hz (by decide)⟩
      · exact ⟨by decide, iff_of_false hz (by decide)⟩
  have hne' := List.append_ne_nil_of_right_ne_nil (List.replicate zeros '0') hne
  refine ⟨List.replicate zeros '0' ++ Nat.toDigits 10 z.natAbs, ?_, ?_⟩
  · rw [scanInteger_eq_some_iff, trimStart_append hblanks hsigns.1 hne' hdigits]
    refine ⟨sign, ⟨hsigns.1, hne', hdigits, rest, rfl, hrest⟩, ?_⟩
    rw [decide_eq_decide]
    exact hsigns.2
  · rw [Nat.ofDigitChars_append, Nat.ofDigitChars_replicate_zero, Nat.mul_zero,
      Nat.ofDigitChars_ten_toDigits]

theorem toList_toString_eq_append (z : Int) :
    (toString z).toList = signText (z < 0) ++ Nat.toDigits 10 z.natAbs :=
  (toList_toString_int z).trans (chars_integerPieces z)

/-- The text of an integer spells it. -/
theorem spellsInteger_toString (z : Int) : SpellsInteger z (toString z).toList := by
  refine ⟨[], signText (z < 0), 0, [], ?_, nofun, ?_, nofun⟩
  · rw [toList_toString_eq_append]
    simp
  · unfold signText
    by_cases hz : z < 0
    · simp [hz]
    · simp [hz]

/-! ### The cast of a spelling -/

namespace Primitive

/-- **What a spelling is cast to**: the integer if it has 64 signed bits, and otherwise the
double nearest to it. -/
theorem castInteger_of_spells (h : SpellsInteger z text) : castInteger text =
    if -(pow2 63 : Int) ≤ z ∧ z < pow2 63 then .int z
    else ((Double.ofNat (z < 0) z.natAbs).map ofDouble).getD .null := by
  obtain ⟨digits, hscan, hmagnitude⟩ := h.scanInteger
  have hsigned : (if decide (z < 0) = true then -(z.natAbs : Int) else (z.natAbs : Int)) = z := by
    by_cases hz : z < 0
    · rw [if_pos (decide_eq_true hz)]
      omega
    · rw [if_neg (by simpa using hz)]
      omega
  unfold castInteger
  simp only [hscan, hmagnitude, hsigned]

/-- A double next to a magnitude beyond 64 signed bits stays a double. -/
theorem ofDouble_of_covers {x : Double} {n : Nat} (hn : pow2 63 ≤ n)
    (hx : x.Covers (4 * n * (pow2 1074 : ℕ))) : ofDouble x = .float x := by
  have hpos := pow2_pos 1074
  have h63 : pow2 63 = 9223372036854775808 := rfl
  have h15 : pow10 15 = 1000000000000000 := rfl
  have hhigh : 4 * n * pow2 1074 ≤ x.high := by exact_mod_cast hx.le.2
  have hunits : x.high = 4 * x.units + 2 * pow2 x.scale := by
    unfold Double.high Double.units
    ring
  have hle := Nat.mul_le_mul_right (pow2 1074) (Nat.mul_le_mul_left 4 hn)
  -- the last bit of a number is no more than the number, but for zero
  have hscale : pow2 x.scale ≤ x.units + 1 := by
    rcases x.leading with hzero | hmantissa
    · rw [hzero]
      exact Nat.le_add_left _ _
    · have hlast := Nat.mul_le_mul_right (pow2 x.scale) (Nat.le_trans (pow2_pos 52) hmantissa)
      unfold Double.units
      omega
  have hbound : ¬ x.units < 9 * pow10 15 * pow2 1074 := by
    rw [h15]
    rw [h63] at hle
    omega
  unfold ofDouble
  rw [if_neg]
  rw [Bool.and_eq_true, decide_eq_true_iff]
  exact fun h => hbound h.2

/-- **An integer of 64 unsigned bits is rounded** if it does not have 64 signed ones. -/
theorem castInteger_rounded (h : SpellsInteger z text) (hlow : (pow2 63 : Int) ≤ z)
    (hhigh : z < pow2 64) : ∃ x : Double, castInteger text = .float x ∧
      x.negative = false ∧ x.Covers (4 * z * (pow2 1074 : ℕ)) := by
  -- no minus sign, so that the integer is its own magnitude
  obtain ⟨n, rfl⟩ := Int.eq_ofNat_of_zero_le (Int.le_trans (Int.natCast_nonneg _) hlow)
  have hrounds := Double.ofNat_rounds false n
  have hlt : (n : ℚ) < Double.overflow := lt_overflow_of_le (by omega)
  cases hx : Double.ofNat false n with
  | none => exact absurd (hrounds.eq_none_iff.mp hx) (not_le.mpr hlt)
  | some x =>
    rw [hx] at hrounds
    refine ⟨x, ?_, hrounds.1, ?_⟩
    · rw [castInteger_of_spells h, if_neg (by omega)]
      simp only [Int.natAbs_natCast]
      rw [decide_eq_false (by omega), hx]
      exact ofDouble_of_covers (by omega) hrounds.2
    · exact_mod_cast hrounds.2

end Primitive

/-! ### The default of a schema -/

theorem mem_toString {c : Char} (h : c ∈ (toString z).toList) : c = '-' ∨ c.isDigit := by
  rw [toList_toString_eq_append, List.mem_append] at h
  rcases h with h | h
  · unfold signText at h
    split at h
    · exact .inl (List.mem_singleton.mp h)
    · cases h
  · exact .inr ((plain_digits z.natAbs).2 c h)

/-- **The text of an integer is a bare default.** -/
theorem isProper_toString (z : Int) : (Default.bare (toString z)).IsProper := by
  refine ⟨?_, ?_, ?_⟩
  · intro c hc
    rcases mem_toString hc with rfl | hdigit
    · decide
    · refine ⟨isBlank_of_isDigit hdigit, ?_⟩
      intro hmark
      simp only [List.mem_cons, List.not_mem_nil, or_false] at hmark
      rcases hmark with rfl | rfl | rfl | rfl | rfl | rfl | rfl <;>
        exact absurd hdigit (by decide)
  · rw [toList_toString_eq_append]
    exact List.append_ne_nil_of_right_ne_nil _ (plain_digits z.natAbs).1
  · intro digits htext
    have hmem : '$' ∈ (toString z).toList := htext ▸ List.mem_cons_self
    rcases mem_toString hmem with hc | hc
    · exact absurd hc (by decide)
    · exact absurd hc (by decide)

theorem length_toString_le (hlow : -(pow2 63 : Int) ≤ z) (hhigh : z < pow2 64) :
    (toString z).length ≤ 21 := by
  have h63 : pow2 63 = 9223372036854775808 := rfl
  have h64 : pow2 64 = 18446744073709551616 := rfl
  have hdigits := Nat.toDigits_length 10 z.natAbs 20 (by omega) (by omega)
  have hsign : (signText (z < 0)).length ≤ 1 := by
    unfold signText
    split <;> decide
  rw [← String.length_toList, toList_toString_eq_append, List.length_append]
  omega

/-- A schema that is one integer with a default. -/
theorem compileText_integer (hlow : -(pow2 63 : Int) ≤ z) (hhigh : z < pow2 64) :
    ∃ a, compileText ("i:" ++ toString z) = .ok a ∧
      a.tree = .scalar false "i" (some (.bare (toString z))) := by
  have hdraft : (Draft.scalar false "i" (some (.bare (toString z)))).WellFormed := by
    refine .scalar (isTypeName_inferred "i" (by simp)) ?_
    rintro _ ⟨⟩
    exact isProper_toString z
  have hwritten : (Draft.scalar false "i" (some (.bare (toString z)))).WrittenAs
      ("i:" ++ toString z) := by
    unfold Draft.WrittenAs
    rw [String.toList_append]
    exact spells_spelled ("i:".toList ++ (toString z).toList)
  have hlength : ("i:" ++ toString z).length ≤ pow2 64 := by
    have hle := length_toString_le hlow hhigh
    have h64 : 23 ≤ pow2 64 := by decide
    have htwo : "i:".length = 2 := rfl
    rw [String.length_append]
    omega
  obtain ⟨s, hs, helaborate⟩ := flatten_of_writtenAs hdraft hwritten hlength
  obtain ⟨a, ha, htree⟩ := compile_of_elaborate helaborate
  refine ⟨a, ?_, htree⟩
  unfold compileText
  rw [hs]
  exact ha

/-- **An integer as the default of a schema is cast from its text.** -/
theorem Session.shapeDefault_integer (hlow : -(pow2 63 : Int) ≤ z) (hhigh : z < pow2 64)
    {s : Session} {options : ShapeOptions} (draws : Path → Nat)
    (hi : (s.registry options.types).get? "i" = some (.primitive .integer)) :
    (s.shapeDefault ("i:" ++ toString z) options draws).answer =
      .ok (Primitive.integer.cast (toString z)) := by
  obtain ⟨a, ha, htree⟩ := compileText_integer hlow hhigh
  unfold shapeDefault shape TerseSchema.shape
  simp only [ha, htree, Walk.run, shaping, leavesOut, hi]
  rfl

/-- **An integer default is exact if and only if it has 64 signed bits.**  However an integer
of 64 signed or unsigned bits is spelled, it is cast to itself if it has 64 signed bits, and
otherwise to the double nearest to it.  The same goes for the default of a schema, under all
types that leave `i` its meaning. -/
theorem integer_default_exact_iff (hlow : -(pow2 63 : Int) ≤ z) (hhigh : z < pow2 64) :
    (∀ text : String, SpellsInteger z text.toList →
      (Primitive.integer.cast text = .int z ↔ z < pow2 63) ∧
      ((pow2 63 : Int) ≤ z → ∃ x : Double, Primitive.integer.cast text = .float x ∧
        x.negative = false ∧ x.Covers (4 * z * (pow2 1074 : ℕ)))) ∧
    ∀ (s : Session) (options : ShapeOptions) (draws : Path → Nat),
      (s.registry options.types).get? "i" = some (.primitive .integer) →
        ((s.shapeDefault ("i:" ++ toString z) options draws).answer = .ok (.int z) ↔
          z < pow2 63) := by
  have hexact : ∀ text : String, SpellsInteger z text.toList →
      (Primitive.integer.cast text = .int z ↔ z < pow2 63) := by
    intro text htext
    by_cases hz : z < pow2 63
    · refine iff_of_true ?_ hz
      exact (Primitive.castInteger_of_spells htext).trans (if_pos ⟨hlow, hz⟩)
    · obtain ⟨x, hx, -⟩ := Primitive.castInteger_rounded htext (Int.not_lt.mp hz) hhigh
      refine iff_of_false ?_ hz
      intro hint
      cases hx.symm.trans hint
  refine ⟨?_, ?_⟩
  · intro text htext
    exact ⟨hexact text htext, fun hz => Primitive.castInteger_rounded htext hz hhigh⟩
  · intro s options draws hi
    rw [Session.shapeDefault_integer hlow hhigh draws hi, Except.ok.injEq]
    exact hexact (toString z) (spellsInteger_toString z)

/-- The greatest integer of 64 signed bits, with a plus sign, zeros and more text. -/
theorem integer_default_exact_greatest :
    Primitive.integer.cast " +009223372036854775807.5" = .int 9223372036854775807 ∧
      (({} : Session).shapeDefault ("i:" ++ toString (9223372036854775807 : Int)) {}
        fun _ => 0).answer = .ok (.int 9223372036854775807) := by
  obtain ⟨hcast, hdefault⟩ :=
    @integer_default_exact_iff 9223372036854775807 (by decide) (by decide)
  have hspells : SpellsInteger 9223372036854775807 " +009223372036854775807.5".toList := by
    refine ⟨[' '], ['+'], 2, ".5".toList, by decide +kernel, ?_, by decide, ?_⟩
    · exact List.forall_mem_singleton.mpr (by decide)
    · rintro _ ⟨⟩
      rfl
  refine ⟨(hcast _ hspells).1.mpr (by decide), ?_⟩
  exact (hdefault {} {} _ rfl).mpr (by decide)

/-- **A document keeps `2 ^ 63 + 1`, and the type of integers accepts it, but as a default
it is rounded** to the double for `2 ^ 63`. -/
theorem integer_default_is_rounded : ∃ x : Double, x.units = pow2 63 * pow2 1074 ∧
    Primitive.integer.check (.int 9223372036854775809) = true ∧
    SpellsInteger 9223372036854775809 "9223372036854775809".toList ∧
    Primitive.integer.cast "9223372036854775809" = .float x ∧
    (({} : Session).shapeDefault ("i:" ++ toString (9223372036854775809 : Int)) {}
      fun _ => 0).answer = .ok (.float x) ∧
    Value.float x ≠ .int 9223372036854775809 := by
  have htext : toString (9223372036854775809 : Int) = "9223372036854775809" := by decide +kernel
  have hspells : SpellsInteger 9223372036854775809 "9223372036854775809".toList :=
    htext ▸ spellsInteger_toString 9223372036854775809
  have hround : ∃ x, Double.ofNat false 9223372036854775809 = some x ∧
      x.units = pow2 63 * pow2 1074 := by
    refine ⟨⟨false, pow2 52, 1085, by decide, by decide, .inr (Nat.le_refl _)⟩, ?_, ?_⟩
    · decide +kernel
    · decide +kernel
  obtain ⟨x, hround, hunits⟩ := hround
  have hkept : Primitive.ofDouble x = .float x := by
    unfold Primitive.ofDouble
    rw [hunits, if_neg]
    simp only [Bool.and_eq_true, not_and]
    intro _
    decide +kernel
  have hcast : Primitive.integer.cast "9223372036854775809" = .float x := by
    have hsign : decide ((9223372036854775809 : Int) < 0) = false := by decide
    have hmagnitude : (9223372036854775809 : Int).natAbs = 9223372036854775809 := by decide
    apply (Primitive.castInteger_of_spells hspells).trans
    rw [if_neg (by decide), hsign, hmagnitude, hround, Option.map_some, hkept, Option.getD_some]
  refine ⟨x, hunits, rfl, hspells, hcast, ?_, nofun⟩
  rw [Session.shapeDefault_integer (by decide) (by decide) _ rfl, htext, hcast]

end TerseSchema
