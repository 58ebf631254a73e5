import TerseSchema.CommandLine.Invocation
import TerseSchema.Json.Printer
import TerseSchema.Operation

/-!
# The command line

A command line is run over a set of files.  It leaves behind what it prints, the
failures that it logs and an exit code.

## Main definitions

* `CommandLine.Failure` — why a command fails.
* `CommandLine.Files` — what a command may read.
* `CommandLine.execute` — runs what a command line asks for.
* `CommandLine.run` — runs a command line.
-/

namespace TerseSchema.CommandLine

/-- Why a command fails. -/
inductive Failure where
  /-- The configuration cannot be loaded. -/
  | config (name : String)
  /-- The file of a schema cannot be read. -/
  | schemaFile (name : String)
  /-- The document cannot be loaded. -/
  | document (error : DocumentError)
  /-- The schema is at fault. -/
  | schema (error : SchemaError)
  deriving DecidableEq

/-- The text of a failure. -/
def Failure.message : Failure → String
  | .config name => "failed to load config: " ++ name
  | .schemaFile name => "failed to read schema file: " ++ name
  | .document error => error.message
  | .schema error => error.message

/-- A character of a message as it is logged.  The control characters on which a terminal
could act are written by their numbers. -/
def loggedChar (c : Char) : List Char :=
  let digits := [Nat.digitChar (c.toNat / 16), Nat.digitChar (c.toNat % 16)]
  if [0x07, 0x08, 0x0c, 0x1b, 0x7f].contains c.toNat then ['\\', 'x'] ++ digits
  else if 0x80 ≤ c.toNat ∧ c.toNat ≤ 0x9f then ['\\', 'u', '\x7b'] ++ digits ++ ['\x7d']
  else [c]

/-- The text of a failure as it is logged. -/
def Failure.logged (f : Failure) : String := String.ofList (f.message.toList.flatMap loggedChar)

/-- The files that a command may read, by path. -/
abbrev Files := String → Option String

/-- The name of the file in a directory to which a path leads.  An empty step or `.`
leads nowhere else, and the last step has to name a file. -/
def localName? (path : String) : Option String :=
  let steps := path.toList.splitOn '/'
  let stays (step : List Char) : Bool := step = [] || step = ['.']
  if path.toList.head? = some '/' || (steps.getLast?.map stays).getD true then none
  else some (String.ofList (['/'].intercalate (steps.filter (!stays ·))))

/-- The files of a directory, given by name. -/
def Files.within (named : Files) : Files := fun path => (localName? path).bind named

/-- The file that an argument for a schema names: behind `@`, its name. -/
def schemaFile? (arg : String) : Option String :=
  match arg.toList with
  | '@' :: name => some (String.ofList name)
  | _ => none

/-- The paths of the files that a command reads. -/
def Command.files : Command → List String
  | .verify schema document _ | .check schema document _ =>
    (schemaFile? schema).toList ++ [document]
  | .shape schema document _ => (schemaFile? schema).toList ++ document.toList
  | .infer document => [document]
  | .flatten schema | .typeShape schema => (schemaFile? schema).toList
  | .types => []

/-- The paths of the files that are read for a command line. -/
def Invocation.files (i : Invocation) : List String := i.config.toList ++ i.command.files

/-- What a command prints, and whether it counts as passed. -/
structure Report where
  /-- Whether the document is accepted. -/
  passed : Bool
  /-- The lines. -/
  lines : List String

/-- The configuration that a command starts from. -/
def loadConfig (files : Files) : Option String → Except Failure Config
  | none => .ok {}
  | some name =>
    match (files name).bind Config.read with
    | some config => .ok config
    | none => .error (.config name)

/-- The schema that an argument stands for: behind `@` the text of a file, and the
argument itself otherwise. -/
def schemaText (files : Files) (arg : String) : Except Failure String :=
  match schemaFile? arg with
  | some name =>
    match files name with
    | some text => .ok text
    | none => .error (.schemaFile name)
  | none => .ok arg

/-- The document with a name. -/
def document (files : Files) (name : String) : Except Failure Value :=
  (loadDocument name (files name)).mapError .document

/-- The options for checking a document. -/
def verifyOptions (config : Config) (pathRoot : Option String) : VerifyOptions :=
  let options := config.verifyOptions
  { options with pathRoot := pathRoot.getD options.pathRoot }

/-- The options for shaping a document. -/
def shapeOptions (config : Config) (includeOptional : Bool) : ShapeOptions :=
  let options := config.shapeOptions
  { options with includeOptional := includeOptional || options.includeOptional }

/-- A flat schema as a value. -/
def flatValue (f : FlatSchema) : Value :=
  let texts (list : List (List Char)) : Value := .arr (list.map fun t => .str (String.ofList t))
  .obj [("flat", .str (String.ofList f.flat)), ("lookups", texts f.lookups),
    ("literals", texts f.literals)]

/-- A report of one line. -/
def Report.line (text : String) : Report := ⟨true, [text]⟩

/-- What a command prints. -/
def report (files : Files) (s : Session) (config : Config) (draws : Draws) :
    Command → Except Failure Report
  | .verify schema name pathRoot => do
    let schema ← schemaText files schema
    let value ← document files name
    match (s.verify value schema (verifyOptions config pathRoot)).answer with
    | .ok () => return .line "ok"
    | .error (.violations records) => return ⟨false, records.map Record.text⟩
    | .error (.schema e) => throw (.schema e)
  | .check schema name pathRoot => do
    let schema ← schemaText files schema
    let value ← document files name
    let passed ← (s.check value schema (verifyOptions config pathRoot)).answer.mapError .schema
    return ⟨passed, [toString passed]⟩
  | .shape schema name includeOptional => do
    let schema ← schemaText files schema
    let value ← match name with
      | some name => document files name
      | none => pure .null
    let options := shapeOptions config includeOptional
    let shaped ← (s.shape value schema options draws.path).answer.mapError .schema
    return .line (Json.render shaped)
  | .infer name => do
    let value ← document files name
    return .line (inferSchema value)
  | .flatten schema => do
    let schema ← schemaText files schema
    let flat ← (TerseSchema.flatten schema).mapError .schema
    return .line (Json.render (flatValue flat))
  | .typeShape schema => do
    let schema ← schemaText files schema
    let compiled ← (compileText schema).mapError .schema
    return .line (Json.render compiled.tree.description)
  | .types =>
    return .line (Json.render ((s.registry config.shapeOptions.types).samples draws.name))

/-- Runs what a command line asks for.  The configuration comes first, and is applied
to a fresh session. -/
def execute (files : Files) (draws : Draws) (i : Invocation) : Except Failure Report := do
  let config ← loadConfig files i.config
  report files (({} : Session).configure config) config draws i.command

/-- What a command line leaves behind. -/
structure Outcome where
  /-- The exit code: 0 if all went well, 1 if the document is not accepted or the
  command fails, 2 if the command line is used wrongly. -/
  exit : Nat
  /-- What is printed, without what is logged. -/
  stdout : String := ""
  /-- The failures, as they are logged. -/
  errors : List String := []
  deriving DecidableEq

/-- Runs a command line over a set of files. -/
def run (files : Files) (draws : Draws) (args : List String) : Outcome :=
  match read args with
  | .error .misuse => { exit := 2 }
  | .error (.notice text) => { exit := 0, stdout := text }
  | .ok invocation =>
    match execute files draws invocation with
    | .ok report =>
      { exit := if report.passed then 0 else 1
        stdout := String.join (report.lines.map (· ++ "\n")) }
    | .error failure => { exit := 1, errors := [failure.logged] }

end TerseSchema.CommandLine
