/-!
# What may be written on a command line

The options and words of every command are data, each with a sentence that says
what it is for.  A command line is read by these data, and the help is made of them.

## Main definitions

* `CommandLine.Opt`, `CommandLine.Word` — what may be written.
* `CommandLine.Grammar` — what may stand on one side of the command's name.
* `CommandLine.Grammar.help` — the help.
* `CommandLine.program`, `CommandLine.commands` — the grammars in front of the
  command's name and behind it.
-/

namespace TerseSchema.CommandLine

/-- What an option does. -/
inductive Effect where
  /-- It takes a value; the name of a file is not empty. -/
  | value (label : String) (isFile : Bool)
  /-- It says yes, and is said once at most. -/
  | flag
  /-- It asks for more messages, each time it is said. -/
  | verbose
  | help
  | version
  deriving DecidableEq

/-- Whether an option with an effect takes a value. -/
def Effect.takesValue : Effect → Bool
  | .value _ _ => true
  | _ => false

/-- An option. -/
structure Opt where
  /-- Its name, which is written behind two dashes. -/
  name : String
  /-- Its letter, which is written behind one dash. -/
  letter : Option Char := none
  effect : Effect
  purpose : String
  deriving DecidableEq

/-- How often a word is written. -/
inductive Count where
  /-- Once. -/
  | one
  /-- Once at most. -/
  | optional
  /-- Any number of times. -/
  | many
  deriving DecidableEq

/-- A word: an argument that is no option. -/
structure Word where
  /-- What stands for it in the help. -/
  label : String
  count : Count := .one
  /-- Whether it names a file; such a name is not empty. -/
  isFile : Bool := false
  purpose : String
  deriving DecidableEq

/-- What may stand on one side of the command's name. -/
structure Grammar where
  /-- What is written in front of it. -/
  path : String
  purpose : String
  words : List Word := []
  options : List Opt := []
  /-- The commands that may follow, with what they are for. -/
  commands : List (String × String) := []

/-! ### The help -/

/-- An option as the help shows it. -/
def Opt.sketch (o : Opt) : String :=
  let letter := match o.letter with
    | some c => String.ofList ['-', c, ',', ' ']
    | none => "    "
  let rest := match o.effect with
    | .value label _ => " <" ++ label ++ ">"
    | .verbose => "..."
    | _ => ""
  letter ++ "--" ++ o.name ++ rest

/-- A word as the help shows it. -/
def Word.sketch (w : Word) : String :=
  match w.count with
  | .one => "<" ++ w.label ++ ">"
  | .optional => "[" ++ w.label ++ "]"
  | .many => "[" ++ w.label ++ "]..."

/-- Lines of two columns.  The second begins two places behind the longest text of the
first. -/
def columns (rows : List (String × String)) : List String :=
  let width := (rows.map (·.1.length)).foldl max 0
  rows.map fun (left, right) =>
    "  " ++ String.ofList (left.toList.rightpad (width + 2) ' ') ++ right

/-- A part of the help; nothing if there is nothing in it. -/
def part (heading : String) (rows : List (String × String)) : List String :=
  if rows.isEmpty then [] else "" :: (heading ++ ":") :: columns rows

namespace Grammar

/-- How a command line is written. -/
def usage (g : Grammar) : String :=
  let options := if g.options.isEmpty then [] else ["[OPTIONS]"]
  let command := if g.commands.isEmpty then [] else ["<COMMAND>"]
  " ".intercalate ("Usage:" :: g.path :: options ++ g.words.map Word.sketch ++ command)

/-- The help. -/
def help (g : Grammar) : String :=
  String.join <| List.map (· ++ "\n") <|
    [g.purpose, "", g.usage] ++ part "Commands" g.commands ++
      part "Arguments" (g.words.map fun w => (w.sketch, w.purpose)) ++
      part "Options" (g.options.map fun o => (o.sketch, o.purpose))

/-- The option with a name. -/
def option? (g : Grammar) (name : String) : Option Opt := g.options.find? (·.name = name)

/-- The option with a letter. -/
def letter? (g : Grammar) (c : Char) : Option Opt := g.options.find? (·.letter = some c)

end Grammar

/-! ### The program -/

/-- The name of the program. -/
def programName : String := "alt"

/-- The version of the program, as it is printed. -/
def versionText : String := programName ++ " 0.1.0\n"

/-- The option for more messages. -/
def verboseOption : Opt :=
  ⟨"verbose", some 'v', .verbose,
    "Enable verbose output. Repeat for more verbosity (-v, -vv, -vvv)"⟩

/-- The option for a configuration. -/
def configOption : Opt :=
  ⟨"config", none, .value "CONFIG" true, "Path to a YAML configuration file"⟩

/-- The option for the help. -/
def helpOption : Opt := ⟨"help", some 'h', .help, "Print help"⟩

/-- The option for the version. -/
def versionOption : Opt := ⟨"version", some 'V', .version, "Print version"⟩

/-- The option for the name of the value in error paths. -/
def pathRootOption : Opt :=
  ⟨"path-root", none, .value "PATH_ROOT" false,
    "Root segment of reported error paths. Overrides the config file"⟩

/-- The option to build absent optional parts. -/
def includeOptionalOption : Opt :=
  ⟨"include-optional", none, .flag,
    "Build defaults for absent optional parts instead of leaving them null"⟩

/-- The word for a schema. -/
def schemaWord : Word :=
  { label := "SCHEMA", purpose := "Schema text, or `@path` to read it from a file" }

/-- The word for a document. -/
def documentWord (count : Count) (purpose : String) : Word :=
  { label := "DOCUMENT", count, isFile := true, purpose }

/-- The grammar behind a command's name.  Some options belong to every command. -/
def commandGrammar (name purpose : String) (words : List Word) (options : List Opt) : Grammar :=
  { path := programName ++ " " ++ name
    purpose
    words
    options := options ++ [verboseOption, configOption, helpOption] }

/-- The name of the command that prints the help. -/
def helpCommand : String := "help"

/-- The grammar behind the name of the command that prints the help. -/
def helpGrammar : Grammar :=
  { path := programName ++ " " ++ helpCommand
    purpose := "Print this message or the help of the given subcommand(s)"
    words :=
      [{ label := "COMMAND", count := .many, purpose := "Print help for the subcommand(s)" }] }

/-- The commands, with the grammars behind their names. -/
def commands : List (String × Grammar) :=
  let validated := [schemaWord, documentWord .one "JSON or YAML document to validate"]
  let grammars :=
    [("verify", "Validate a document and print every violation", validated, [pathRootOption]),
      ("check", "Validate a document and print true or false", validated, [pathRootOption]),
      ("shape", "Print a document with every declared part present and well-typed",
        [schemaWord,
          documentWord .optional "JSON or YAML document to shape. Omit to shape from nothing"],
        [includeOptionalOption]),
      ("infer", "Print a schema inferred from an example document",
        [documentWord .one "Example JSON or YAML document"], []),
      ("flatten", "Print the flattened form of a schema", [schemaWord], []),
      ("type-shape", "Print the normalized type tree of a schema", [schemaWord], []),
      ("types", "List every registered type with a sample value", [], [])]
  grammars.map (fun (name, purpose, words, options) =>
    (name, commandGrammar name purpose words options)) ++ [(helpCommand, helpGrammar)]

/-- The grammar in front of the command's name. -/
def program : Grammar :=
  { path := programName
    purpose := "CLI for alt schemas: verify, check and shape JSON/YAML documents, infer " ++
      "schemas from examples, and inspect compiled schemas."
    options := [verboseOption, configOption, helpOption, versionOption]
    commands := commands.map fun (name, g) => (name, g.purpose) }

end TerseSchema.CommandLine
