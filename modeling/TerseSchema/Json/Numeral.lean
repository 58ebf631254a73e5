import TerseSchema.Number.Prefix
import TerseSchema.Value

/-!
# Numerals of JSON texts

An integer that fits 64 bits, signed or unsigned, is kept as an integer.  Every
other numeral becomes a double, computed as a document reader does it: the
leading digits that fit 64 bits form a significand, and one multiplication or
division by a power of ten gives the number.  The result may therefore lie one
unit in the last place beside the nearest double.

## Main definitions

* `Json.Significand` — the leading digits, and how many more places there are.
* `Json.scale` — a significand times a power of ten.
* `Json.readNumeral` — the number of a numeral; none where the numeral is
  malformed or lies beyond the largest double.
-/

namespace TerseSchema.Json

/-- The largest natural number of 64 bits. -/
def maxNatural : Nat := pow2 64 - 1

/-- The largest magnitude of a negative integer of 64 bits. -/
def maxNegative : Nat := pow2 63

/-- Digits read as a number of at most 64 bits times a power of ten. -/
structure Significand where
  /-- The digits that were kept. -/
  value : Nat := 0
  /-- The power of ten that the digits left out, or read behind the point, leave. -/
  exponent : Int := 0
  deriving DecidableEq

namespace Significand

/-- Whether a digit can be kept. -/
def fits (s : Significand) (digit : Char) : Bool :=
  s.value * 10 + (digit.toNat - '0'.toNat) ≤ maxNatural

/-- The significand with one more digit. -/
def push (s : Significand) (digit : Char) : Nat := s.value * 10 + (digit.toNat - '0'.toNat)

/-- Reads the digits in front of the point.  From the first one that does not fit
on, a digit only raises the exponent. -/
def readWhole : Significand → List Char → Significand
  | s, [] => s
  | s, d :: digits =>
    if s.fits d then readWhole ⟨s.push d, s.exponent⟩ digits
    else ⟨s.value, s.exponent + (digits.length + 1)⟩

/-- Reads the digits behind the point.  From the first one that does not fit on,
they are ignored. -/
def readFraction : Significand → List Char → Significand
  | s, [] => s
  | s, d :: digits =>
    if s.fits d then readFraction ⟨s.push d, s.exponent - 1⟩ digits else s

end Significand

/-- `value * 10 ^ exponent`, by one operation on doubles.  Below the range of
exponents of ten that doubles have, one division by the least of them comes
first. -/
def scale (value : Nat) (exponent : Int) : Option Double :=
  (Double.ofNat false value).bind fun x =>
    let power (n : Nat) : Option Double := Double.ofDecimal false 1 n
    if x.isZero then some x
    else if 0 ≤ exponent then (power exponent.toNat).bind x.mul
    else if -308 ≤ exponent then (power (-exponent).toNat).bind x.div
    else if -616 ≤ exponent then
      ((power 308).bind x.div).bind fun y => (power (-exponent - 308).toNat).bind y.div
    else some (.zero false)

/-- The largest exponent that is read as a number. -/
def maxExponent : Int := (pow2 31 : Int) - 1

/-- The double of a numeral. -/
def readDouble (d : DecimalText) : Option Double :=
  let s := (Significand.readWhole {} d.whole).readFraction (d.fraction.getD [])
  let exponent := (d.exponent.map ExponentText.value).getD 0
  let magnitude :=
    if maxExponent < exponent then if s.value = 0 then some (.zero false) else none
    else if exponent < -maxExponent then some (.zero false)
    else scale s.value (s.exponent + exponent)
  magnitude.map fun x => if d.sign = ['-'] then x.neg else x

/-- Whether the pieces of a decimal number are a numeral: no plus sign, a digit in
front of the point, no needless zero there, and a digit behind the point. -/
def isNumeral (d : DecimalText) : Bool :=
  d.sign ≠ ['+'] && d.fraction ≠ some [] &&
    match d.whole with
    | [] => false
    | '0' :: rest => rest.isEmpty
    | _ => true

/-- The number of a numeral.  `-0` is no integer, for an integer has no negative
zero. -/
def readNumeral (text : List Char) : Option Number :=
  match DecimalText.scan text with
  | none => none
  | some d =>
    if d.chars = text ∧ isNumeral d then
      let n := Nat.ofDigitChars 10 d.whole 0
      if d.fraction.isNone ∧ d.exponent.isNone ∧ d.sign = [] ∧ n ≤ maxNatural then
        some (.int n)
      else if d.fraction.isNone ∧ d.exponent.isNone ∧ d.sign = ['-'] ∧ n ≠ 0 ∧ n ≤ maxNegative then
        some (.int (-(n : Int)))
      else (readDouble d).map .float
    else none

end TerseSchema.Json
