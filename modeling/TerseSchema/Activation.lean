/-!
# Activation of validation

Validation may be switched off as a whole, or left to the environment that the
process runs in.

## Main definitions

* `Activation` — the settings.
* `Activation.isActive` — whether validation runs under a setting.
-/

namespace TerseSchema

/-- Whether validation runs. -/
inductive Activation where
  | enabled
  /-- Never; every value passes. -/
  | disabled
  /-- Only in the environment of development. -/
  | environment (tag : String)
  deriving DecidableEq

namespace Activation

/-- The environment in which validation runs. -/
def activeEnvironment : String := "development"

/-- Whether validation runs under a setting. -/
def isActive : Activation → Bool
  | .enabled => true
  | .disabled => false
  | .environment tag => tag = activeEnvironment

/-- The setting of a switch. -/
def ofBool (on : Bool) : Activation := if on then .enabled else .disabled

end Activation

end TerseSchema
