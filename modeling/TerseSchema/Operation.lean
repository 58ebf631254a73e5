import TerseSchema.Description
import TerseSchema.Document
import TerseSchema.Inference
import TerseSchema.Session
import TerseSchema.Types.Summary

/-!
# Operations

Everything that can be asked of a session, and everything that changes one.  A
question is answered out of the session and leaves it as it is; the three changes
are a registration, a setting of the activation and a configuration.

## Main definitions

* `SchemaSource`, `Scope`, `CallOptions`, `Draws` — the parts of questions.
* `Question`, `Operation`, `Answer` — what is asked, what is done, and what comes
  back.
* `Session.answer` — answers a question.
* `Session.perform`, `Session.run` — performs one operation, and several in a row.
-/

namespace TerseSchema

/-! ### The parts of questions -/

/-- A schema, as text or in its flat form. -/
inductive SchemaSource where
  | text (schema : String)
  | flat (schema : FlatSchema)

namespace SchemaSource

/-- The flat form of a schema. -/
def flat? : SchemaSource → Except SchemaError FlatSchema
  | .text schema => flatten schema
  | .flat schema => .ok schema

/-- The compiled form of a schema. -/
def arena? (source : SchemaSource) : Except SchemaError Arena := source.flat?.bind compile

end SchemaSource

/-- Which types a question is about. -/
inductive Scope where
  /-- Only the builtin kinds. -/
  | builtin
  /-- The types of the session, and over them some of the call. -/
  | call (types : List (String × TypeDef))

/-- The options of a call as they are given: what is given here counts more than
what the configuration says. -/
structure CallOptions where
  config : Option String := none
  /-- The name of the value in error paths. -/
  pathRoot : Option String := none
  /-- Whether absent optional parts are built. -/
  includeOptional : Option Bool := none
  /-- Types for this call only. -/
  types : List (String × TypeDef) := []

/-- Why a configuration cannot be used. -/
inductive ConfigError where
  /-- Its text is faulty. -/
  | malformed
  /-- There is no such file. -/
  | unreadable
  deriving DecidableEq

namespace CallOptions

/-- The configuration that a call starts from. -/
def base (o : CallOptions) : Except ConfigError Config :=
  match o.config with
  | none => .ok {}
  | some text =>
    match Config.read text with
    | some config => .ok config
    | none => .error .malformed

/-- The options for checking a value. -/
def verify (o : CallOptions) : Except ConfigError VerifyOptions :=
  o.base.map fun config =>
    let options := config.verifyOptions
    ⟨o.pathRoot.getD options.pathRoot, Table.merge options.types o.types⟩

/-- The options for shaping a value. -/
def shape (o : CallOptions) : Except ConfigError ShapeOptions :=
  o.base.map fun config =>
    let options := config.shapeOptions
    ⟨o.includeOptional.getD options.includeOptional, Table.merge options.types o.types⟩

end CallOptions

/-- The draws behind samples that are picked at random. -/
structure Draws where
  /-- The draw for the sample at a path. -/
  path : Path → Nat
  /-- The draw for the sample of a name. -/
  name : String → Nat

/-! ### Questions, operations and answers -/

/-- What can be asked of a session. -/
inductive Question where
  | flatten (schema : SchemaSource)
  /-- The literals that texts stand for in a schema. -/
  | resolveLiterals (schema : SchemaSource) (texts : List String)
  | compile (schema : SchemaSource)
  /-- Whether all types of a schema have a meaning. -/
  | typesKnown (schema : SchemaSource) (scope : Scope)
  /-- A value against a schema, with the reasons if it is not accepted. -/
  | verify (value : Value) (schema : String) (options : CallOptions)
  | check (value : Value) (schema : String) (options : CallOptions)
  /-- The records of values, whether or not validation runs. -/
  | validate (schema : SchemaSource) (values : List Value) (scope : Scope) (pathRoot : String)
  | shape (value : Value) (schema : String) (options : CallOptions)
  /-- The shaped form of nothing. -/
  | shapeDefault (schema : String) (options : CallOptions)
  | shapeAll (schema : SchemaSource) (values : List Value) (scope : Scope)
    (includeOptional : Bool)
  | infer (value : Value)
  | describe (schema : String)
  | names (scope : Scope)
  | samples (scope : Scope)
  | has (scope : Scope) (names : List String)
  | sample (scope : Scope) (names : List String)
  | cast (scope : Scope) (name : String) (texts : List String)
  | checkType (scope : Scope) (name : String) (values : List Value)
  /-- Whether the samples of an enumeration under some draws are its members. -/
  | samplesBelong (members : List Value) (draws : List Nat)
  | summary (type : TypeDef)
  /-- Whether validation would run under a setting. -/
  | isActive (activation : Activation)
  | active
  | config (text : String)
  /-- The configuration of a file, which may be missing. -/
  | configFile (text : Option String)
  /-- The value of a document, whose file may be missing. -/
  | document (name : String) (text : Option String)

/-- What can be done with a session. -/
inductive Operation where
  | ask (question : Question)
  /-- Registers a type for all later calls. -/
  | register (name : String) (type : TypeDef)
  /-- Sets whether validation runs. -/
  | activate (activation : Activation)
  | configure (text : String)

/-- What an operation answers. -/
inductive Answer where
  /-- All went well. -/
  | done
  /-- A flat schema, and the group its root refers to. -/
  | flat (schema : FlatSchema) (root : Option Nat)
  /-- Resolved texts, and the group the root refers to. -/
  | resolved (texts : List String) (root : Option Nat)
  | arena (schema : Arena)
  /-- The records of a value that is not accepted. -/
  | rejected (records : List Record)
  | records (all : List (List Record))
  | truth (value : Bool)
  | truths (values : List Bool)
  | value (value : Value)
  | values (values : List Value)
  /-- Several values, some of them missing. -/
  | options (values : List (Option Value))
  | text (text : String)
  | texts (texts : List String)
  | config (config : Config)
  | schemaError (error : SchemaError)
  | configError (error : ConfigError)
  | documentError (error : DocumentError)

namespace Answer

/-- The answer of what may meet a fault of the schema. -/
def ofSchema {α : Type} (ok : α → Answer) : Except SchemaError α → Answer
  | .ok a => ok a
  | .error e => .schemaError e

/-- The answer of what may meet a fault of the configuration. -/
def ofConfig : Except ConfigError Config → Answer
  | .ok c => .config c
  | .error e => .configError e

end Answer

namespace Traced

/-- An answer that takes no calls. -/
def pure {α : Type} (answer : α) : Traced α := ⟨answer, []⟩

/-- Changes an answer and keeps its calls. -/
def map {α β : Type} (f : α → β) (t : Traced α) : Traced β := ⟨f t.answer, t.calls⟩

/-- Several answers in a row; the first fault is the only answer. -/
def all {ε α : Type} (ts : List (Traced (Except ε α))) : Traced (Except ε (List α)) :=
  ⟨ts.mapM (·.answer), ts.flatMap (·.calls)⟩

end Traced

namespace Session

/-- What type names mean in a scope. -/
def typesIn (s : Session) : Scope → Registry
  | .builtin => .builtin
  | .call types => s.registry types

/-- Answers with options, unless the configuration is at fault. -/
def withOptions {α : Type} (options : Except ConfigError α) (f : α → Traced Answer) :
    Traced Answer :=
  match options with
  | .error e => .pure (.configError e)
  | .ok options => f options

/-- Answers with a compiled schema, unless the schema is at fault. -/
def withArena (source : SchemaSource) (f : Arena → Traced Answer) : Traced Answer :=
  match source.arena? with
  | .error e => .pure (.schemaError e)
  | .ok schema => f schema

/-- Answers a question, together with the calls of custom checks that takes. -/
def answer (s : Session) (draws : Draws) : Question → Traced Answer
  | .flatten source => .pure (.ofSchema (fun f => .flat f f.rootReference) source.flat?)
  | .resolveLiterals source texts =>
    .pure (.ofSchema (fun f => .resolved
      (texts.map fun t => String.ofList (f.resolveLiteral t.toList)) f.rootReference) source.flat?)
  | .compile source => .pure (.ofSchema .arena source.arena?)
  | .typesKnown source scope =>
    .pure (.ofSchema (fun _ => .done)
      (source.arena?.bind fun schema => (s.typesIn scope).ensureKnown schema.types))
  | .verify value schema options =>
    withOptions options.verify fun options =>
      (s.verify value schema options).map fun
        | .ok () => .done
        | .error (.violations records) => .rejected records
        | .error (.schema e) => .schemaError e
  | .check value schema options =>
    withOptions options.verify fun options =>
      (s.check value schema options).map (.ofSchema .truth)
  | .validate source values scope pathRoot =>
    withArena source fun schema =>
      (Traced.all (values.map fun v =>
        TerseSchema.validate v schema (s.typesIn scope) pathRoot)).map (.ofSchema .records)
  | .shape value schema options =>
    withOptions options.shape fun options =>
      (s.shape value schema options draws.path).map (.ofSchema .value)
  | .shapeDefault schema options =>
    withOptions options.shape fun options =>
      (s.shapeDefault schema options draws.path).map (.ofSchema .value)
  | .shapeAll source values scope includeOptional =>
    withArena source fun schema =>
      (Traced.all (ε := SchemaError) (values.map fun v =>
        (TerseSchema.shape v schema (s.typesIn scope) includeOptional draws.path).map .ok)).map
          (.ofSchema .values)
  | .infer value => .pure (.text (inferSchema value))
  | .describe schema =>
    .pure (.ofSchema (fun schema => .value schema.tree.description) (compileText schema))
  | .names scope => .pure (.texts (s.typesIn scope).names)
  | .samples scope => .pure (.value ((s.typesIn scope).samples draws.name))
  | .has scope names => .pure (.truths (names.map (s.typesIn scope).has))
  | .sample scope names =>
    .pure (.options (names.map fun n => (s.typesIn scope).sample n (draws.name n)))
  | .cast scope name texts => .pure (.options (texts.map ((s.typesIn scope).cast name)))
  | .checkType scope name values =>
    (Traced.all (values.map fun v =>
      let ctx : Context := ⟨⟨Path.defaultRoot, []⟩, v, none⟩
      ⟨(s.typesIn scope).check name v ctx, (s.typesIn scope).calls name v ctx⟩)).map
        (.ofSchema .truths)
  | .samplesBelong members draws =>
    .pure (.truth (draws.all fun draw =>
      members.any (·.same ((TypeDef.enum members).sample draw))))
  | .summary type => .pure (.text type.summary)
  | .isActive activation => .pure (.truth activation.isActive)
  | .active => .pure (.truth s.activation.isActive)
  | .config text => .pure (.ofConfig ({ config := some text : CallOptions }.base))
  | .configFile text =>
    .pure (.ofConfig (match text with
      | none => .error .unreadable
      | some text => { config := some text : CallOptions }.base))
  | .document name text =>
    .pure (match loadDocument name text with
      | .ok v => .value v
      | .error e => .documentError e)

/-- Performs one operation. -/
def perform (s : Session) (draws : Draws) : Operation → Traced Answer × Session
  | .ask question => (s.answer draws question, s)
  | .register name type => (.pure .done, s.register name type)
  | .activate activation =>
    let s := s.activate activation
    (.pure (.truth s.activation.isActive), s)
  | .configure text =>
    match Config.read text with
    | none => (.pure (.configError .malformed), s)
    | some config =>
      let s := s.configure config
      (.pure (.truth s.activation.isActive), s)

/-- Performs operations in a row, and gives their answers. -/
def run (s : Session) (draws : Draws) : List Operation → List (Traced Answer)
  | [] => []
  | operation :: rest =>
    let (answer, s) := s.perform draws operation
    answer :: s.run draws rest

end Session

end TerseSchema
