import TerseSchema.Value

/-!
# Paths and places

A path leads from the value that a call starts from to one of its parts.  A place
is what a schema meets at the end of a path: a value or none, and the array or
object that directly holds it.

## Main definitions

* `Step`, `Path`, `Path.text` — paths and their dotted text.
* `Place` — what a schema meets; `Place.present` is the value there, for which
  `null` counts as nothing.
* `Place.item`, `Place.field` — the places one step further.
-/

namespace TerseSchema

/-- One step into a value. -/
inductive Step where
  | item (index : Nat)
  | field (name : String)
  deriving DecidableEq

/-- The text of a step. -/
def Step.text : Step → String
  | .item index => toString index
  | .field name => name

/-- A path: the name given to the starting value, and the steps from there. -/
structure Path where
  /-- The name of the starting value. -/
  root : String
  /-- The steps, the first one first. -/
  steps : List Step := []
  deriving DecidableEq

namespace Path

/-- The name of the starting value when none is chosen. -/
def defaultRoot : String := "json"

/-- A path one step longer. -/
def extend (p : Path) (step : Step) : Path := { p with steps := p.steps ++ [step] }

/-- The dotted text of a path: `json.b.d.2.e`. -/
def text (p : Path) : String := ".".intercalate (p.root :: p.steps.map Step.text)

end Path

/-- What a schema meets at the end of a path. -/
structure Place where
  /-- The value, if there is one. -/
  value : Option Value
  /-- How it is reached. -/
  path : Path
  /-- The array or object that directly holds it. -/
  parent : Option Value := none

namespace Place

/-- The value at a place; `null` counts as nothing. -/
def present (p : Place) : Option Value := p.value.filter fun v => !v.isNull

/-- The place of an item of what is here. -/
def item (p : Place) (index : Nat) (value : Option Value) : Place :=
  ⟨value, p.path.extend (.item index), p.present⟩

/-- The place of a field of what is here. -/
def field (p : Place) (name : String) (value : Option Value) : Place :=
  ⟨value, p.path.extend (.field name), p.present⟩

end Place

end TerseSchema
