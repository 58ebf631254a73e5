import TerseSchema.Types.Registry

/-!
# Options of one call

## Main definitions

* `VerifyOptions` — for checking a value.
* `ShapeOptions` — for shaping a value.
-/

namespace TerseSchema

/-- Options for checking a value. -/
structure VerifyOptions where
  /-- The name of the value in error paths. -/
  pathRoot : String := Path.defaultRoot
  /-- Types for this call only. -/
  types : List (String × TypeDef) := []

/-- Options for shaping a value. -/
structure ShapeOptions where
  /-- Whether absent optional parts are built instead of left `null`. -/
  includeOptional : Bool := false
  /-- Types for this call only. -/
  types : List (String × TypeDef) := []

end TerseSchema
