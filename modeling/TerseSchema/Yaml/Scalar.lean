import TerseSchema.Json.Token
import TerseSchema.Number.Prefix

/-!
# The meaning of plain YAML texts

A text without quotes is null, a truth value, an integer, a float or, failing all
these, the text itself.

## Main definitions

* `Yaml.Number` — the numbers of YAML: unlike those of documents, they include the
  infinities and the number that is none.
* `Yaml.integer?` — an integer in decimal, hexadecimal, octal or binary.
* `Yaml.float?` — a float.
* `Yaml.Scalar` — what a plain text stands for; `Yaml.Scalar.ofPlain?` reads it.
-/

namespace TerseSchema.Yaml

/-- A number. -/
inductive Number where
  | int (value : Int)
  /-- A finite float. -/
  | float (value : Double)
  | infinite (negative : Bool)
  /-- The float that is no number. -/
  | nan
  deriving DecidableEq

/-- Whether a text stands for null. -/
def isNull (text : String) : Bool := ["~", "null", "Null", "NULL"].contains text

/-- A truth value. -/
def bool? (text : String) : Option Bool :=
  if ["true", "True", "TRUE"].contains text then some true
  else if ["false", "False", "FALSE"].contains text then some false
  else none

/-! ### Integers -/

/-- The number that digits of a base denote; there is at least one digit. -/
def digits? (base : Nat) (text : List Char) : Option Nat :=
  if text.isEmpty then none
  else
    (text.mapM fun c => (Json.hexDigit? c).filter (· < base)).map fun values =>
      values.foldl (fun n d => base * n + d) 0

/-- The magnitude of an integer: decimal, or behind `0x`, `0o` or `0b` in another
base.  A decimal number has no needless zero in front. -/
def magnitude? : List Char → Option Nat
  | '0' :: 'x' :: text => digits? 16 text
  | '0' :: 'o' :: text => digits? 8 text
  | '0' :: 'b' :: text => digits? 2 text
  | ['0'] => some 0
  | '0' :: _ => none
  | text => digits? 10 text

/-- An integer of any size. -/
def integer? (text : List Char) : Option Int :=
  match text with
  | '+' :: text => (magnitude? text).map fun n => (n : Int)
  | '-' :: text => (magnitude? text).map fun n => -(n : Int)
  | text => (magnitude? text).map fun n => (n : Int)

/-- Whether an integer fits 64 bits, signed or unsigned. -/
def fits64 (z : Int) : Bool := -(pow2 63 : Int) ≤ z && z < pow2 64

/-- Whether an integer fits 128 bits, signed or unsigned. -/
def fits128 (z : Int) : Bool := -(pow2 127 : Int) ≤ z && z < pow2 128

/-! ### Floats -/

/-- A float: a decimal number that is not beyond the largest double, an infinity, or
the float that is no number. -/
def float? (text : String) : Option Number :=
  if [".inf", ".Inf", ".INF", "+.inf", "+.Inf", "+.INF"].contains text then
    some (.infinite false)
  else if ["-.inf", "-.Inf", "-.INF"].contains text then some (.infinite true)
  else if [".nan", ".NaN", ".NAN"].contains text then some .nan
  else
    match DecimalText.scan text.toList with
    | some d => if d.chars = text.toList then d.value.map .float else none
    | none => none

/-- Whether a text consists of digits, with a sign perhaps, and begins with a zero
too many. -/
def hasNeedlessZero (text : List Char) : Bool :=
  match (splitSign text).2 with
  | '0' :: c :: rest => (c :: rest).all Char.isDigit
  | _ => false

/-! ### Plain texts -/

/-- What a text without quotes stands for. -/
inductive Scalar where
  | null
  | bool (value : Bool)
  | num (value : Number)
  | str (value : String)
  deriving DecidableEq

namespace Scalar

/-- What an integer stands for.  One that fits 128 bits but not 64 is a fault, and
one beyond is no integer. -/
def ofInteger? (z : Int) (otherwise : Option Scalar) : Option Scalar :=
  if fits64 z then some (.num (.int z)) else if fits128 z then none else otherwise

/-- What a text stands for that is neither null nor a truth value nor an integer.  A
row of digits with a needless zero stays a text. -/
def ofFloat (text : String) : Scalar :=
  if hasNeedlessZero text.toList then .str text
  else match float? text with
    | some x => .num x
    | none => .str text

/-- What a text without quotes stands for; none if it is an integer out of range. -/
def ofPlain? (text : String) : Option Scalar :=
  if text.isEmpty || isNull text then some .null
  else match bool? text with
    | some b => some (.bool b)
    | none =>
      match integer? text.toList with
      | some z => ofInteger? z (some (ofFloat text))
      | none => some (ofFloat text)

end Scalar

end TerseSchema.Yaml
