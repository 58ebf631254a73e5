import TerseSchema.Number.Double
import TerseSchema.Text.Blank

/-!
# Numbers at the head of a text

A text may begin with a number and go on with anything.  The scanners skip
leading white space and take the longest prefix that is a number.

## Main definitions

* `DecimalText` — the pieces of a decimal number as written; `DecimalText.chars`
  joins them again, and `DecimalText.value` is the nearest double.
* `DecimalText.scan` — the longest decimal number at the head of a text.
* `scanInteger` — the sign and the digits of an integer at the head of a text.
-/

namespace TerseSchema

/-- Splits off a leading sign. -/
def splitSign : List Char → List Char × List Char
  | '+' :: rest => (['+'], rest)
  | '-' :: rest => (['-'], rest)
  | text => ([], text)

/-- Splits off the leading ASCII digits. -/
def splitDigits (text : List Char) : List Char × List Char := text.span Char.isDigit

/-- The sign and the digits of an integer at the head of a text, after white
space; none if no digit is there. -/
def scanInteger (text : List Char) : Option (Bool × List Char) :=
  let (sign, rest) := splitSign (trimStart text)
  let (digits, _) := splitDigits rest
  if digits.isEmpty then none else some (sign = ['-'], digits)

/-- The exponent of a decimal number, as written. -/
structure ExponentText where
  /-- `e` or `E`. -/
  mark : Char
  sign : List Char
  digits : List Char
  deriving DecidableEq

namespace ExponentText

/-- The text of an exponent. -/
def chars (e : ExponentText) : List Char := e.mark :: e.sign ++ e.digits

/-- The number it denotes. -/
def value (e : ExponentText) : Int :=
  let magnitude : Nat := Nat.ofDigitChars 10 e.digits 0
  if e.sign = ['-'] then -(magnitude : Int) else (magnitude : Int)

/-- The exponent at the head of a text; none without at least one digit. -/
def scan (text : List Char) : Option ExponentText :=
  match text with
  | [] => none
  | mark :: rest =>
    if mark = 'e' ∨ mark = 'E' then
      let (sign, rest) := splitSign rest
      let (digits, _) := splitDigits rest
      if digits.isEmpty then none else some ⟨mark, sign, digits⟩
    else none

end ExponentText

/-- The pieces of a decimal number, as written. -/
structure DecimalText where
  sign : List Char
  /-- The digits before the point. -/
  whole : List Char
  /-- The digits behind the point, if there is a point. -/
  fraction : Option (List Char)
  exponent : Option ExponentText
  deriving DecidableEq

namespace DecimalText

/-- The text of a decimal number. -/
def chars (d : DecimalText) : List Char :=
  d.sign ++ d.whole ++ (d.fraction.map ('.' :: ·)).getD [] ++
    (d.exponent.map ExponentText.chars).getD []

/-- The nearest double; none beyond the largest finite one. -/
def value (d : DecimalText) : Option Double :=
  let fraction := d.fraction.getD []
  Double.ofDecimal (d.sign = ['-']) (Nat.ofDigitChars 10 (d.whole ++ fraction) 0)
    ((d.exponent.map ExponentText.value).getD 0 - fraction.length)

/-- The longest decimal number at the head of a text: there is a digit before or
behind the point, and an exponent counts only with a digit of its own. -/
def scan (text : List Char) : Option DecimalText :=
  let (sign, rest) := splitSign text
  let (whole, rest) := splitDigits rest
  match rest with
  | '.' :: rest =>
    let (fraction, rest) := splitDigits rest
    if whole.isEmpty && fraction.isEmpty then none
    else some ⟨sign, whole, some fraction, ExponentText.scan rest⟩
  | rest => if whole.isEmpty then none else some ⟨sign, whole, none, ExponentText.scan rest⟩

end DecimalText

end TerseSchema
