import TerseSchema.Schema.Walk
import TerseSchema.Value

/-!
# Description

A schema is described by a value of the same structure, in which every scalar is
a text `marker:type:default`.

## Main definitions

* `longName` — the long name of a type.
* `describing` — the walk; it has no place to look at.
* `Tree.description` — the description of a schema.
-/

namespace TerseSchema

/-- The long name of a type with a short one; any other name is its own. -/
def longName : String → String
  | "i" => "integer"
  | "n" => "number"
  | "b" => "boolean"
  | "s" => "string"
  | other => other

/-- The text that describes a scalar. -/
def descriptor (optional : Bool) (type : String) (declared : Option Default) : String :=
  (if optional then "?" else "") ++ ":" ++ longName type ++ ":" ++
    (declared.map Default.text).getD ""

/-- Describes a schema; the wildcard of an object comes last, under its own name. -/
def describing : Walk Unit Value where
  scalar optional type declared _ := .str (descriptor optional type declared)
  array _ parts _ := .arr (parts.map (· ()))
  object _ fields wildcard _ :=
    .obj <| Table.ofEntries <|
      fields.map (fun (name, describe) => (name, describe ())) ++
        (wildcard.map fun describe => (wildcardName, describe ())).toList

/-- The description of a schema. -/
def Tree.description (t : Tree) : Value := describing.run t ()

end TerseSchema
