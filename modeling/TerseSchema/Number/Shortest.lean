import TerseSchema.Number.Double

/-!
# Shortest decimal text

The text of a `Double` has the fewest digits that read back as the same number.
The reals that round to a number form an interval around it; a power of ten is a
grid on the line, and the search takes the coarsest grid on which one of the
number's two neighbours lies in that interval.

## Main definitions

* `Double.readsBack` — whether `digits * 10 ^ exponent` rounds to the magnitude
  of a number.
* `Double.shortest` — the decimal that is written.
* `Double.text` — its layout: positional while the decimal point falls within
  sixteen places of the first digit or less than five in front of it, and with
  an exponent beyond.
-/

namespace TerseSchema.Double

/-- Whether `digits * 10 ^ exponent` lies among the reals that round to the
magnitude of `x`.  The ends of the interval are halfway to the neighbours, and
belong to it exactly when the mantissa is even; below a power of two the lower
neighbour is only half as far away. -/
def readsBack (x : Double) (digits : Nat) (exponent : Int) : Bool :=
  -- everything in quarters of a unit of `2 ^ -1074`
  let point := 4 * digits * pow10 exponent.toNat * pow2 1074
  let quarter := pow2 x.scale * pow10 (-exponent).toNat
  let below := if x.mantissa = pow2 52 ∧ x.scale ≠ 0 then 1 else 2
  let low := (4 * x.mantissa - below) * quarter
  let high := (4 * x.mantissa + 2) * quarter
  if x.mantissa % 2 = 0 then low ≤ point && point ≤ high else low < point && point < high

/-- The neighbour of `x` on the grid of `10 ^ exponent` that reads back, the
nearer one if both do and the even one on a tie. -/
def onGrid (x : Double) (exponent : Int) : Option (Nat × Int) :=
  let num := x.units * pow10 (-exponent).toNat
  let den := pow10 exponent.toNat * pow2 1074
  let digits := num / den
  let near := nearest num den
  let far := if near = digits then digits + 1 else digits
  if x.readsBack near exponent then some (near, exponent)
  else if x.readsBack far exponent then some (far, exponent)
  else none

/-- The decimal `digits * 10 ^ exponent` with the fewest digits that reads back;
the exact value, should no grid down to the finest have one. -/
def shortest (x : Double) : Nat × Int :=
  let grids := (List.range 633).map fun (i : Nat) => 308 - (i : Int)
  (grids.findSome? x.onGrid).getD (x.units * Nat.pow 5 1074, -1074)

/-- The text of a number: `1.0`, `0.00001234`, `1e30`, `-1.5e-7`.  In front of an
exponent that is not negative stands `plus`. -/
def text (plus : String) (x : Double) : String :=
  let sign := if x.negative then "-" else ""
  if x.isZero then sign ++ "0.0" else
  let (value, exponent) := x.shortest
  let digits := Nat.toDigits 10 value
  -- the place of the decimal point, counted from in front of the first digit
  let point : Int := digits.length + exponent
  let zeros (n : Int) := List.replicate n.toNat '0'
  let body : List Char :=
    if 0 ≤ exponent ∧ point ≤ 16 then digits ++ zeros exponent ++ ['.', '0']
    else if 0 < point ∧ point ≤ 16 then
      digits.take point.toNat ++ '.' :: digits.drop point.toNat
    else if -5 < point ∧ point ≤ 0 then '0' :: '.' :: zeros (-point) ++ digits
    else
      let fraction := digits.drop 1
      let mark := if fraction.isEmpty then [] else ['.']
      let lead := if point ≤ 0 then "" else plus
      digits.take 1 ++ mark ++ fraction ++ 'e' :: (lead ++ toString (point - 1)).toList
  sign ++ String.ofList body

end TerseSchema.Double
