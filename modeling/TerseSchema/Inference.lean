import TerseSchema.Text.Blank
import TerseSchema.Value

/-!
# Inference

A schema text can be read off an example value.  Keys that the schema language
cannot spell are left out, so that the schema does not reject its own example.

## Main definitions

* `isPlainKey` — whether a key can be written in a schema.
* `Value.inferred` — the schema of an example.
* `inferSchema` — its text.
-/

namespace TerseSchema

/-- The characters, besides white space, that a field name cannot hold. -/
def reserved : List Char := [':', ',', '"', '{', '}', '[', ']']

/-- Whether a key can be written as a field name and means itself. -/
def isPlainKey (key : String) : Bool :=
  key ≠ "*" && key.toList.all fun c => !isBlank c && c ∉ reserved

mutual

/-- The schema of an example: an array is described by its first item, an object
by every key that can be written, `null` by a bare optional mark. -/
def Value.inferred : Value → List Char
  | .null => ['?']
  | .bool _ => ['b']
  | .num n => if n.isWhole then ['i'] else ['n']
  | .str _ => ['s']
  | .arr items => '[' :: inferredFirst items ++ [']']
  | .obj fields => '{' :: [','].intercalate (inferredFields fields) ++ ['}']

/-- The schema of the first item, if there is one. -/
def Value.inferredFirst : List Value → List Char
  | [] => []
  | v :: _ => v.inferred

/-- The entries of the fields that can be written. -/
def Value.inferredFields : List (String × Value) → List (List Char)
  | [] => []
  | (key, v) :: fields =>
    if isPlainKey key then (key.toList ++ ':' :: v.inferred) :: inferredFields fields
    else inferredFields fields

end

/-- The schema text of an example. -/
def inferSchema (v : Value) : String := String.ofList v.inferred

end TerseSchema
