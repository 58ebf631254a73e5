import TerseSchema.Options
import TerseSchema.Yaml.Datum

/-!
# Configuration

A configuration is a YAML mapping of four fields, each of which may be missing.
The fields are read by what they are for: a text field takes any text as it is
written, whatever it would stand for elsewhere.

## Main definitions

* `Config` — a configuration.
* `Config.read` — reads one; none if there is a fault.
* `Config.typeDefs`, `Config.verifyOptions`, `Config.shapeOptions` — what it means
  for the calls that use it.
-/

namespace TerseSchema

/-- A configuration. -/
structure Config where
  /-- Whether absent optional parts are built. -/
  includeOptional : Bool := false
  /-- The name of the value in error paths. -/
  pathRoot : String := Path.defaultRoot
  /-- The environment, which decides whether validation runs. -/
  environment : Option String := none
  /-- Enumerations by name, in the order of the names. -/
  types : List (String × List Value) := []
  deriving DecidableEq

namespace Config

/-- A text as it is written. -/
def text? : Yaml.Content → Option String
  | .text _ _ text => some text
  | _ => none

/-- Whether some content is nothing at all. -/
def isAbsent : Yaml.Content → Bool
  | .text _ style text => style = .plain && text.isEmpty
  | _ => false

/-- A truth value: plain, or a block text whose tag says that it is one. -/
def bool? : Yaml.Content → Option Bool
  | .text tag style text =>
    if style = .plain || (style = .literal && tag = some (.standard "bool")) then
      Yaml.bool? text
    else none
  | _ => none

/-- A text that may be missing: a plain null is no text unless a tag says so. -/
def optionalText? : Yaml.Content → Option (Option String)
  | .text tag style text =>
    if style ≠ .plain then some (some text)
    else match tag with
      | none => some (if text.isEmpty || Yaml.isNull text then none else some text)
      | some t =>
        if t = .standard "null" then if Yaml.isNull text then some none else none
        else some (some text)
  | _ => none

mutual

/-- A member of an enumeration.  Tags of its own are faults, a float that is not
finite is null, and the last value of a key is the one kept. -/
def member? : Yaml.Content → Option Value
  | .text tag style text =>
    match Yaml.textDatum? tag style text with
    | some .null => some .null
    | some (.bool b) => some (.bool b)
    | some (.num (.int z)) => some (.int z)
    | some (.num (.float x)) => some (.float x)
    | some (.num _) => some .null
    | some (.str s) => some (.str s)
    | _ => none
  | .sequence tag items =>
    if (tag.bind Yaml.Tag.own?).isSome then none else (memberItems? items).map .arr
  | .mapping tag entries =>
    if (tag.bind Yaml.Tag.own?).isSome then none
    else (memberFields? entries).map fun fields => .obj (Table.ofEntries fields)

/-- The items of a member. -/
def memberItems? : List Yaml.Content → Option (List Value)
  | [] => some []
  | c :: items => (member? c).bind fun v => (memberItems? items).map (v :: ·)

/-- The fields of a member. -/
def memberFields? : List (Yaml.Content × Yaml.Content) → Option (List (String × Value))
  | [] => some []
  | (k, v) :: entries =>
    (text? k).bind fun k => (member? v).bind fun v => (memberFields? entries).map ((k, v) :: ·)

end

/-- The members of an enumeration. -/
def members? (c : Yaml.Content) : Option (List Value) :=
  match c with
  | .sequence _ items => memberItems? items
  | c => if isAbsent c then some [] else none

/-- The enumerations; of two with one name the last one counts. -/
def types? (c : Yaml.Content) : Option (List (String × List Value)) :=
  match c with
  | .mapping _ entries =>
    (entries.mapM fun (k, v) => do return (← text? k, ← members? v)).map fun types =>
      Table.sorted (Table.ofEntries types)
  | c => if isAbsent c then some [] else none

/-- A configuration with one more field; `seen` are the names of the fields so far. -/
def field? (config : Config) (seen : List String) (name : String) (c : Yaml.Content) :
    Option Config :=
  if seen.contains name then none
  else match name with
    | "include_optional" => (bool? c).map fun b => { config with includeOptional := b }
    | "error_path_root" => (text? c).map fun t => { config with pathRoot := t }
    | "environment" => (optionalText? c).map fun t => { config with environment := t }
    | "types" => (types? c).map fun types => { config with types }
    | _ => none

/-- A configuration with more fields. -/
def fields? (config : Config) (seen : List String) :
    List (Yaml.Content × Yaml.Content) → Option Config
  | [] => some config
  | (k, v) :: entries =>
    (text? k).bind fun name => (config.field? seen name v).bind fun config =>
      config.fields? (name :: seen) entries

/-- The configuration that some content stands for. -/
def ofContent? (c : Yaml.Content) : Option Config :=
  match c with
  | .mapping _ entries => fields? {} [] entries
  | c => if isAbsent c then some {} else none

/-- The configuration of a text. -/
def read (text : String) : Option Config := (Yaml.read text).bind ofContent?

/-- The enumerations as types. -/
def typeDefs (config : Config) : List (String × TypeDef) :=
  config.types.map fun (name, members) => (name, .enum members)

/-- The options for checking a value. -/
def verifyOptions (config : Config) : VerifyOptions := ⟨config.pathRoot, config.typeDefs⟩

/-- The options for shaping a value. -/
def shapeOptions (config : Config) : ShapeOptions := ⟨config.includeOptional, config.typeDefs⟩

end Config

end TerseSchema
