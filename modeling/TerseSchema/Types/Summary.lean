import TerseSchema.Json.Printer
import TerseSchema.Types.Definition

/-!
# Summaries of type definitions

A type definition is summed up in one line: a primitive by its kind, an
enumeration by its members, a custom type by whether it has a generator.

## Main definitions

* `Value.summary` — the one-line form of a value, with the name of its kind.
* `TypeDef.summary` — the one-line form of a type.

Texts are put between quotes as they are; the form is meant for texts without
characters that need escaping.
-/

namespace TerseSchema

mutual

/-- A value with the name of its kind. -/
def Value.summary : Value → String
  | .null => "Null"
  | .bool b => "Bool(" ++ toString b ++ ")"
  | .num n => "Number(" ++ n.text ++ ")"
  | .str s => "String(\"" ++ s ++ "\")"
  | .arr items => "Array [" ++ ", ".intercalate (summaryItems items) ++ "]"
  | .obj fields => "Object \x7b" ++ ", ".intercalate (summaryFields fields) ++ "\x7d"

/-- The items of an array. -/
def Value.summaryItems : List Value → List String
  | [] => []
  | v :: items => v.summary :: summaryItems items

/-- The fields of an object. -/
def Value.summaryFields : List (String × Value) → List String
  | [] => []
  | (key, v) :: fields => ("\"" ++ key ++ "\": " ++ v.summary) :: summaryFields fields

end

/-- The name of a kind. -/
def Primitive.summary : Primitive → String
  | .string => "String"
  | .number => "Number"
  | .boolean => "Boolean"
  | .integer => "Integer"
  | .function => "Function"

/-- A type in one line. -/
def TypeDef.summary : TypeDef → String
  | .primitive kind => "Primitive(" ++ kind.summary ++ ")"
  | .enum members => "Enum([" ++ ", ".intercalate (members.map Value.summary) ++ "])"
  | .custom _ generator => "Custom \x7b has_sample: " ++ toString generator.isSome ++ ", .. \x7d"

end TerseSchema
