import TerseSchema.Json.Reader
import TerseSchema.Yaml.Datum

/-!
# Documents

A document is a file that holds one value, in YAML if the name of the file says so
and in JSON otherwise.

## Main definitions

* `DocumentError` — why a document cannot be loaded; `DocumentError.message`.
* `extension` — the extension of a file name.
* `loadDocument` — the value of a document.
-/

namespace TerseSchema

/-- Why a document cannot be loaded. -/
inductive DocumentError where
  /-- There is no such file. -/
  | unreadable (name : String)
  /-- The file does not hold JSON. -/
  | badJson (name : String)
  /-- The file does not hold YAML. -/
  | badYaml (name : String)
  /-- The file holds YAML that has no document value. -/
  | unrepresentable (name : String) (reason : Yaml.Unrepresentable)
  deriving DecidableEq

/-- The text of a fault. -/
def DocumentError.message : DocumentError → String
  | .unreadable name => "failed to read document: " ++ name
  | .badJson name => "failed to parse JSON: " ++ name
  | .badYaml name => "failed to parse YAML: " ++ name
  | .unrepresentable name reason =>
    "failed to convert YAML to JSON in " ++ name ++ ": " ++ reason.message

/-- The last component of a path, a slash at the end aside. -/
def fileName (path : String) : List Char :=
  ((path.toList.reverse.dropWhile (· = '/')).takeWhile (· ≠ '/')).reverse

/-- What follows the last dot of a file name, unless nothing is in front of it. -/
def extension (path : String) : Option String :=
  let name := fileName path
  let (reversed, stem) := name.reverse.span (· ≠ '.')
  if name = ['.', '.'] || stem.length ≤ 1 then none else some (String.ofList reversed.reverse)

/-- Whether a document holds YAML. -/
def isYaml (path : String) : Bool :=
  match extension path with
  | some e => ["yaml", "yml"].contains (String.ofList (e.toList.map Char.toLower))
  | none => false

/-- The value of the document `name` with the given text; a missing file has none. -/
def loadDocument (name : String) (text : Option String) : Except DocumentError Value :=
  match text with
  | none => .error (.unreadable name)
  | some text =>
    if isYaml name then
      match (Yaml.read text).bind Yaml.Content.datum? with
      | none => .error (.badYaml name)
      | some datum => datum.toValue.mapError (.unrepresentable name)
    else
      match Json.read text with
      | none => .error (.badJson name)
      | some v => .ok v

end TerseSchema
