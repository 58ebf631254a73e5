import TerseSchema.Number.Prefix
import TerseSchema.Value

/-!
# Primitive types

## Main definitions

* `Primitive` — the five builtin kinds of scalars, with a long and a short name.
* `Primitive.check` — whether a value is of a kind.
* `Primitive.sample` — the value that stands for a kind.
* `Primitive.cast` — a declared default, given as text, as a value of a kind.
-/

namespace TerseSchema

/-- The builtin kinds of scalars. -/
inductive Primitive where
  | string
  | number
  | boolean
  /-- Whole numbers, however they are kept. -/
  | integer
  /-- Functions, of which documents have none. -/
  | function
  deriving DecidableEq

namespace Primitive

/-- The kinds with their long and short names. -/
def all : List (Primitive × String × String) :=
  [(.string, "string", "s"), (.number, "number", "n"), (.boolean, "boolean", "b"),
    (.integer, "integer", "i"), (.function, "function", "f")]

/-- Whether a value is of a kind. -/
def check : Primitive → Value → Bool
  | .string, .str _ => true
  | .number, .num _ => true
  | .boolean, .bool _ => true
  | .integer, .num n => n.isWhole
  | _, _ => false

/-- The value that stands for a kind. -/
def sample : Primitive → Value
  | .string => .str ""
  | .number => .int 0
  | .boolean => .bool true
  | .integer => .int 0
  | .function => .null

/-- A double as a value: a whole number of magnitude below `9 * 10 ^ 15` becomes
an integer, so that `2` casts to `2` and not to `2.0`. -/
def ofDouble (x : Double) : Value :=
  if x.isWhole && x.units < 9 * pow10 15 * pow2 1074 then .int x.truncate else .float x

/-- The integer at the head of a text; beyond 64 signed bits it is rounded to a
double, and `null` if it has none. -/
def castInteger (text : List Char) : Value :=
  match scanInteger text with
  | none => .null
  | some (negative, digits) =>
    let magnitude : Nat := Nat.ofDigitChars 10 digits 0
    let z : Int := if negative then -(magnitude : Int) else (magnitude : Int)
    if -(pow2 63 : Int) ≤ z ∧ z < pow2 63 then .int z
    else ((Double.ofNat negative magnitude).map ofDouble).getD .null

/-- The number at the head of a text; `null` if there is none or it is beyond the
largest double. -/
def castNumber (text : List Char) : Value :=
  (((DecimalText.scan (trimStart text)).bind DecimalText.value).map ofDouble).getD .null

/-- A declared default as a value of a kind.  Every default of a truth value is
`true`, whatever its text. -/
def cast : Primitive → String → Value
  | .integer, text => castInteger text.toList
  | .number, text => castNumber text.toList
  | .boolean, _ => .bool true
  | .string, text | .function, text => .str text

end Primitive

end TerseSchema
