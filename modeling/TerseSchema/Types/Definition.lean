import TerseSchema.Path
import TerseSchema.Types.Primitive

/-!
# Type definitions

## Main definitions

* `Context` — what a custom check may look at besides the value.
* `TypeDef` — a primitive, an enumeration or a custom check.
* `TypeDef.check`, `TypeDef.sample`, `TypeDef.cast` — whether a value is of a
  type, a value that stands for it, and a declared default as a value of it.
* `Call`, `TypeDef.calls` — the calls of custom checks that a check makes.
-/

namespace TerseSchema

/-- What a custom check may look at besides the value itself. -/
structure Context where
  /-- The path of the value. -/
  path : Path
  /-- The value that the call started from. -/
  root : Value
  /-- The array or object that directly holds the value. -/
  parent : Option Value
  deriving DecidableEq

/-- What a type name stands for.  Where a sample is drawn at random, the draw is a
number handed in. -/
inductive TypeDef where
  | primitive (kind : Primitive)
  /-- An enumeration: texts must be members, any other value is accepted. -/
  | enum (members : List Value)
  /-- A check of its own, with a generator of samples. -/
  | custom (check : Value → Context → Bool) (generator : Option (Nat → Value))

namespace TypeDef

/-- A custom type without a generator. -/
def predicate (check : Value → Context → Bool) : TypeDef := .custom check none

/-- Gives a custom type a generator; other types already have samples. -/
def withSample (generator : Nat → Value) : TypeDef → TypeDef
  | .custom check _ => .custom check (some generator)
  | other => other

/-- Whether a value is of a type. -/
def check : TypeDef → Value → Context → Bool
  | .primitive kind, v, _ => kind.check v
  | .enum members, v, _ => !v.isText || members.any (·.same v)
  | .custom check _, v, ctx => check v ctx

/-- A value that stands for a type; `null` for an enumeration without members and
for a custom type without a generator. -/
def sample : TypeDef → Nat → Value
  | .primitive kind, _ => kind.sample
  | .enum members, draw => (members[draw % members.length]?).getD .null
  | .custom _ generator, draw => (generator.map (· draw)).getD .null

/-- A declared default as a value of a type; only builtin kinds convert it. -/
def cast : TypeDef → String → Value
  | .primitive kind, text => kind.cast text
  | .enum _, text | .custom _ _, text => .str text

end TypeDef

/-- One call of a custom check. -/
structure Call where
  type : String
  value : Value
  /-- What the check could look at. -/
  context : Context
  deriving DecidableEq

/-- The calls of custom checks that checking a value against a type makes. -/
def TypeDef.calls : TypeDef → String → Value → Context → List Call
  | .custom _ _, name, v, ctx => [⟨name, v, ctx⟩]
  | _, _, _, _ => []

end TerseSchema
