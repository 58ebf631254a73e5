import TerseSchema.Schema.Error
import TerseSchema.Table
import TerseSchema.Types.Definition

/-!
# Type registries

A registry is what type names mean in one call.  It is built from three layers:
the builtin kinds, the types registered for the whole process, and the types
supplied with the call; a name means what the topmost layer that has it says.

## Main definitions

* `Registry`, `Registry.builtin`, `Registry.snapshot` — registries.
* `Registry.check`, `Registry.calls` — checking a value against a named type, and
  the calls of custom checks that takes.
* `Registry.sample`, `Registry.cast`, `Registry.names`, `Registry.samples` — the
  remaining questions about names.
* `Registry.ensureKnown` — fails on the first name without a meaning.
-/

namespace TerseSchema

/-- What type names mean in one call. -/
structure Registry where
  types : List (String × TypeDef)

namespace Registry

/-- The builtin kinds under their long and short names. -/
def builtin : Registry :=
  ⟨Table.ofEntries <| Primitive.all.flatMap fun (kind, long, short) =>
    [(long, .primitive kind), (short, .primitive kind)]⟩

/-- The builtin kinds, over them the types of the process, over these the types of
the call. -/
def snapshot (global call : List (String × TypeDef)) : Registry :=
  ⟨Table.merge (Table.merge builtin.types global) call⟩

/-- What a name means. -/
def get? (r : Registry) (name : String) : Option TypeDef := r.types.lookup name

/-- Whether a name has a meaning. -/
def has (r : Registry) (name : String) : Bool := (r.get? name).isSome

/-- Checks a value against a named type.  The empty name accepts every value. -/
def check (r : Registry) (name : String) (v : Value) (ctx : Context) : Except SchemaError Bool :=
  if name = "" then .ok true
  else match r.get? name with
    | some type => .ok (type.check v ctx)
    | none => .error (.unknownType name)

/-- The calls of custom checks that checking a value against a named type makes. -/
def calls (r : Registry) (name : String) (v : Value) (ctx : Context) : List Call :=
  if name = "" then []
  else match r.get? name with
    | some type => type.calls name v ctx
    | none => []

/-- A sample of a named type. -/
def sample (r : Registry) (name : String) (draw : Nat) : Option Value :=
  (r.get? name).map (·.sample draw)

/-- A declared default as a value of a named type. -/
def cast (r : Registry) (name text : String) : Option Value := (r.get? name).map (·.cast text)

/-- Every name, in order. -/
def names (r : Registry) : List String := Table.names (Table.sorted r.types)

/-- A sample of every name, in the order of the names, with a draw for each. -/
def samples (r : Registry) (draws : String → Nat) : Value :=
  .obj ((Table.sorted r.types).map fun (name, type) => (name, type.sample (draws name)))

/-- Fails on the first non-empty name without a meaning. -/
def ensureKnown (r : Registry) (names : List String) : Except SchemaError Unit :=
  match names.find? fun name => name ≠ "" && !r.has name with
  | some name => .error (.unknownType name)
  | none => .ok ()

end Registry

end TerseSchema
