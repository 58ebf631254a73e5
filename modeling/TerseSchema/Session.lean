import TerseSchema.Activation
import TerseSchema.Config
import TerseSchema.Shaping

/-!
# Sessions

A session is the state that the calls of one process share: whether validation
runs, and the types registered for all calls.

## Main definitions

* `Session` — the state; a fresh one validates and has no types of its own.
* `Session.registry` — what type names mean in a call.
* `Session.verify`, `Session.check` — a value against a schema text.
* `Session.shape`, `Session.shapeDefault` — the shaped value of a schema text.
* `Session.register`, `Session.activate`, `Session.configure` — the changes of
  state.
-/

namespace TerseSchema

/-- The state that the calls of one process share. -/
structure Session where
  /-- Whether validation runs. -/
  activation : Activation := .enabled
  /-- The types registered for all calls. -/
  types : List (String × TypeDef) := []

/-- Why a value is not accepted. -/
inductive Rejection where
  /-- The schema is at fault. -/
  | schema (error : SchemaError)
  /-- The value violates the schema, at one place at least. -/
  | violations (records : List Record)
  deriving DecidableEq

/-- The text of a rejection. -/
def Rejection.message : Rejection → String
  | .schema error => error.message
  | .violations records => summary records

/-- The arena of a schema text. -/
def compileText (text : String) : Except SchemaError Arena := (flatten text).bind compile

namespace Session

/-- What type names mean in a call with types of its own. -/
def registry (s : Session) (call : List (String × TypeDef)) : Registry :=
  Registry.snapshot s.types call

/-- Checks a value against a schema text.  Everything passes, the schema unseen,
while validation is switched off. -/
def verify (s : Session) (value : Value) (text : String) (options : VerifyOptions) :
    Traced (Except Rejection Unit) :=
  if s.activation.isActive then
    match compileText text with
    | .error e => ⟨.error (.schema e), []⟩
    | .ok schema =>
      let found := validate value schema (s.registry options.types) options.pathRoot
      let answer := match found.answer with
        | .error e => .error (.schema e)
        | .ok [] => .ok ()
        | .ok records => .error (.violations records)
      ⟨answer, found.calls⟩
  else ⟨.ok (), []⟩

/-- Whether a value passes.  A fault of the schema remains an error. -/
def check (s : Session) (value : Value) (text : String) (options : VerifyOptions) :
    Traced (Except SchemaError Bool) :=
  let verified := s.verify value text options
  let answer := match verified.answer with
    | .ok () => .ok true
    | .error (.violations _) => .ok false
    | .error (.schema e) => .error e
  ⟨answer, verified.calls⟩

/-- The shaped value of a schema text; type names without a meaning are no error. -/
def shape (s : Session) (value : Value) (text : String) (options : ShapeOptions)
    (draws : Path → Nat) : Traced (Except SchemaError Value) :=
  match compileText text with
  | .error e => ⟨.error e, []⟩
  | .ok schema =>
    let shaped := TerseSchema.shape value schema (s.registry options.types)
      options.includeOptional draws
    ⟨.ok shaped.answer, shaped.calls⟩

/-- The shaped value of a schema text when nothing is given. -/
def shapeDefault (s : Session) (text : String) (options : ShapeOptions) (draws : Path → Nat) :
    Traced (Except SchemaError Value) :=
  s.shape .null text options draws

/-- Registers a type for all later calls. -/
def register (s : Session) (name : String) (type : TypeDef) : Session :=
  { s with types := Table.insert s.types name type }

/-- Sets whether validation runs. -/
def activate (s : Session) (activation : Activation) : Session := { s with activation }

/-- Registers the types of a configuration, and lets its environment, if it names
one, decide whether validation runs. -/
def configure (s : Session) (config : Config) : Session where
  activation := (config.environment.map .environment).getD s.activation
  types := Table.merge s.types config.typeDefs

end Session

end TerseSchema
